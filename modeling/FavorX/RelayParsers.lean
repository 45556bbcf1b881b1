import FavorX.Panics
import FavorX.Shed

/-!
The parsers of what a relay receives: SOCKS5 requests and datagrams, and the requests that other
nodes relay. The request parser takes the address type from a byte that it has not read unless the
type is IPv4, the handler of relayed connections subtracts a port that may not be there, and the
handler of relayed HTTP requests expects two slashes in the URL.
-/
namespace FavorX.RelayParsers
open Panics
open Shed (Bytes)

abbrev Text := List Char

inductive Err where
  /-- an error of a reader, of a dialled connection or of a library -/
  | given
  /-- bad Request -/
  | badRequest
  /-- failed to read request -/
  | failedToRead
  /-- domain parse err -/
  | domainParse
  deriving DecidableEq

abbrev Result (α : Type) := Except (Failure Err) α

def atypIPv4 : UInt8 := 1
def atypDomain : UInt8 := 3
def atypIPv6 : UInt8 := 4

/-! ### Readers -/

/-- What is still to come, in the segments in which it arrives; then the reader fails. -/
abbrev Reader := List Bytes

/-- One `Read` into a buffer of `k` bytes. -/
def read (k : Nat) : Reader → Result Bytes
  | [] => .error (.err .given)
  | segment :: _ => .ok (segment.take k)

/-- `io.ReadFull` into a buffer of `k` bytes. -/
def readFull (k : Nat) : Reader → Result (Bytes × Reader)
  | [] => if k = 0 then .ok ([],[]) else .error (.err .given)
  | segment :: rest =>
    if k ≤ segment.length then .ok (segment.take k,segment.drop k :: rest)
    else do
      let (more,rest) ← readFull (k - segment.length) rest
      .ok (segment ++ more,rest)

/-- The bytes do not depend on the segments. -/
theorem readFull_eq (k : Nat) (r : Reader) :
    (∃ rest, readFull k r = .ok (r.flatten.take k,rest) ∧ k ≤ r.flatten.length) ∨
      readFull k r = .error (.err .given) ∧ r.flatten.length < k := by
  induction r generalizing k with
  | nil =>
    by_cases zero : k = 0
    · exact .inl ⟨[],by simp [readFull,zero]⟩
    · exact .inr ⟨by simp [readFull,zero],Nat.pos_of_ne_zero zero⟩
  | cons segment rest ih =>
    simp only [readFull,List.flatten_cons,List.length_append]
    by_cases enough : k ≤ segment.length
    · left
      refine ⟨segment.drop k :: rest,?_,by omega⟩
      rw [if_pos enough,List.take_append_of_le_length enough]
    rw [if_neg enough]
    rcases ih (k - segment.length) with ⟨rest',read,long⟩ | ⟨failed,short⟩
    · left
      refine ⟨rest',?_,by omega⟩
      rw [read,List.take_append,List.take_of_length_le (by omega : segment.length ≤ k)]
      rfl
    · exact .inr ⟨by rw [failed]; rfl,by omega⟩

theorem safe_readFull (k : Nat) (r : Reader) : Safe (readFull k r) := by
  rcases readFull_eq k r with ⟨rest,ok,-⟩ | ⟨failed,-⟩
  · rw [ok]
    exact safe_ok _
  · rw [failed]
    exact safe_err

/-! ### The parsers -/

structure Request where
  rsv : UInt8
  atyp : UInt8
  dstAddr : Bytes
  dstPort : Bytes

/-- The address of a request. Two bytes have been read. -/
def requestAddress (bb : Bytes) (r : Reader) : Result (Bytes × Reader) := do
  let atyp ← index bb 1
  if atyp = atypIPv4 then readFull 4 r
  else
    let atyp ← index bb 3
    if atyp = atypIPv6 then readFull 16 r
    else if atyp = atypDomain then
      let (dal,r) ← readFull 1 r
      let length ← index dal 0
      check (length ≠ 0) .badRequest
      let (addr,r) ← readFull length.toNat r
      .ok (dal ++ addr,r)
    else .error (.err .badRequest)

def newRequestFrom (r : Reader) : Result Request := do
  let (bb,r) ← readFull 2 r
  let (addr,r) ← requestAddress bb r
  let (port,_) ← readFull 2 r
  .ok { rsv := ← index bb 0, atyp := ← index bb 1, dstAddr := addr, dstPort := port }

def uint16 (b : Bytes) : Result Nat := do
  .ok ((← index b 0).toNat * 256 + (← index b 1).toNat)

structure Datagram where
  rsv : Bytes
  frag : UInt8
  atyp : UInt8
  dstAddr : Bytes
  dstPort : Bytes
  data : Bytes

/-- The host and the port of which the text of the address is made. -/
def Datagram.address (d : Datagram) : Result (Bytes × Nat) := do
  let host ← if d.atyp = atypDomain then slice d.dstAddr 1 d.dstAddr.length else .ok d.dstAddr
  .ok (host,← uint16 d.dstPort)

/-- The address of a datagram and the length up to its end. -/
def datagramAddress (bb : Bytes) (atyp : UInt8) : Result (Bytes × Nat) := do
  if atyp = atypIPv4 then
    check (8 ≤ bb.length) .badRequest
    .ok (← slice bb 4 8,8)
  else if atyp = atypIPv6 then
    check (20 ≤ bb.length) .badRequest
    .ok (← slice bb 4 20,20)
  else if atyp = atypDomain then
    check (5 ≤ bb.length) .badRequest
    let l ← index bb 4
    check (l ≠ 0) .badRequest
    check (5 + l.toNat ≤ bb.length) .badRequest
    .ok (l :: (← slice bb 5 (5 + l.toNat)),5 + l.toNat)
  else .error (.err .badRequest)

def newDatagramFromBytes (bb : Bytes) : Result Datagram := do
  check (4 ≤ bb.length) .badRequest
  let atyp ← index bb 3
  let (addr,minl) ← datagramAddress bb atyp
  check (minl + 2 < bb.length) .badRequest
  let port ← slice bb minl (minl + 2)
  let data ← slice bb (minl + 2) bb.length
  let d : Datagram := ⟨← slice bb 0 2,← index bb 2,atyp,addr,port,data⟩
  -- the address is written to the log
  let _ ← d.address
  .ok d

/-! ### The handlers -/

structure ConfigNetDomain where
  domain : Text
  addr : Text

structure Group where
  name : Text
  agentWS : List ConfigNetDomain
  agentHttp : List ConfigNetDomain

structure Service where
  proxyGroup : Text
  groups : List Group

structure HttpRequest where
  url : Text
  connection : Text
  upgrade : Text

structure Outside where
  readRequest : Reader → Option HttpRequest
  /-- the scheme of the URL that is parsed in the context of a URL of the first scheme -/
  parse : Text → Text → Option Text
  /-- dial, answer and copy until the connection ends -/
  relay : Bytes × Nat → Option Err
  serve : Text → Option Err

def returned : Option Err → Result Unit
  | none => .ok ()
  | some e => .error (.err e)

/-- `strings.ReplaceAll` of a text that is not empty by nothing; the number counts what is left of an occurrence. -/
def removeAll (old : Text) : Nat → Text → Text
  | _,[] => []
  | skip + 1,_ :: rest => removeAll old skip rest
  | 0,c :: rest => if old <+: c :: rest then removeAll old (old.length - 1) rest else c :: removeAll old 0 rest

/-- `strings.Split` at slashes. -/
def split : Text → List Text
  | [] => [[]]
  | c :: rest =>
    if c = '/' then [] :: split rest
    else
      match split rest with
      | [] => [[c]]
      | first :: others => (c :: first) :: others

theorem length_split (url : Text) : (split url).length = url.count '/' + 1 := by
  induction url with
  | nil => rfl
  | cons c rest ih =>
    by_cases slash : c = '/'
    · simp [split,slash,ih]
    simp only [split,slash,if_false]
    cases parts : split rest with
    | nil => simp [parts] at ih
    | cons first others => simpa [parts,slash] using ih

namespace Service
variable (s : Service) (out : Outside)

def getDomainAddrWithScheme (scheme groupName domainName : Text) : Option Text :=
  s.groups.findSome? fun v =>
    if v.name = groupName then
      let agents :=
        if scheme = "ws".toList ∨ scheme = "wss".toList then v.agentWS
        else if scheme = "http".toList ∨ scheme = "https".toList then v.agentHttp
        else []
      (agents.find? (·.domain = domainName)).map (·.addr)
    else none

/-- The host of a relayed connection, whose port comes last. -/
def socks5Host (b : Bytes) (atyp : UInt8) : Result Bytes :=
  if atyp = atypIPv4 ∨ atyp = atypIPv6 then slice b 2 (b.length - 2)
  else if atyp = atypDomain then slice b 3 (b.length - 2)
  else .ok []

def onSocks5TCP (r : Reader) : Result Unit := do
  if s.proxyGroup ≠ [] then .ok ()
  else
    let b ← read 2048 r
    check (2 ≤ b.length) .failedToRead
    let port ← uint16 (← slice b (b.length - 2) b.length)
    let host ← socks5Host b (← index b 1)
    returned (out.relay (host,port))

def onRelayHttpReqV2 (r : Reader) : Result Unit := do
  let req ← orFail .given (out.readRequest r)
  let url := removeAll "/group/http".toList 0 req.url
  let urls := split url
  let reqWS : Bool := req.connection = "Upgrade".toList ∧ req.upgrade = "websocket".toList
  let scheme := if reqWS then "ws".toList else "http".toList
  let group ← index urls 1
  let domain ← index urls 2
  let addr ← orFail .domainParse (s.getDomainAddrWithScheme scheme group domain)
  let scheme ← orFail .given (out.parse scheme (addr ++ removeAll ('/' :: group ++ '/' :: domain) 0 url))
  if reqWS then
    if scheme = "ws".toList ∨ scheme = "wss".toList then returned (out.serve scheme)
    -- no connection is dialled, and the nil one is to be closed
    else .error .panicked
  else returned (out.serve scheme)

/-- The byte after the first one says that an IPv4 address follows. -/
def RequestFits (r : Reader) : Prop := ∀ atyp, r.flatten[1]? = some atyp → atyp = atypIPv4

/-- The first segment of a connection that is not passed on has room for a port beside the address. -/
def ConnectionFits (r : Reader) : Prop :=
  s.proxyGroup = [] → ∀ segment ∈ r.head?, ∀ atyp, segment[1]? = some atyp →
    (atyp = atypIPv4 ∨ atyp = atypIPv6 → 4 ≤ segment.length) ∧ (atyp = atypDomain → 5 ≤ segment.length)

/-- A relayed request names a group and a domain, and for a websocket the address of the domain is one of a websocket. -/
def UrlFits (r : Reader) : Prop :=
  ∀ req, out.readRequest r = some req →
    let url := removeAll "/group/http".toList 0 req.url
    2 ≤ url.count '/' ∧ (req.connection = "Upgrade".toList → req.upgrade = "websocket".toList →
      ∀ group, (split url)[1]? = some group → ∀ domain, (split url)[2]? = some domain →
        ∀ addr, s.getDomainAddrWithScheme "ws".toList group domain = some addr →
          ∀ scheme, out.parse "ws".toList (addr ++ removeAll ('/' :: group ++ '/' :: domain) 0 url) = some scheme →
            scheme = "ws".toList ∨ scheme = "wss".toList)

theorem safe_newRequestFrom (r : Reader) : Safe (newRequestFrom r) ↔ RequestFits r := by
  rcases readFull_eq 2 r with ⟨rest,read,long⟩ | ⟨failed,short⟩
  · obtain ⟨rsv,atyp,bytes⟩ : ∃ rsv atyp, r.flatten.take 2 = [rsv,atyp] := by
      match all : r.flatten with
      | rsv :: atyp :: more => exact ⟨rsv,atyp,rfl⟩
      | [] | [_] => simp [all] at long
    have second : r.flatten[1]? = some atyp := by
      rw [← List.getElem?_take_of_lt (by decide : 1 < 2),bytes]
      rfl
    simp only [newRequestFrom,requestAddress,read,bytes,RequestFits,second,Option.some.injEq,forall_eq']
    by_cases four : atyp = atypIPv4
    · simp [safe_bind,safe_index,index_ok,safe_readFull,safe_ok,four]
    · simp [safe_bind,safe_index,index_ok,four]
  apply iff_of_true
  · rw [newRequestFrom,failed]
    exact safe_err
  · intro atyp second
    have := (List.getElem?_eq_some_iff.mp second).1
    omega

theorem safe_uint16 (b : Bytes) : Safe (uint16 b) ↔ 2 ≤ b.length := by
  simp only [uint16,safe_bind,safe_index,index_ok,safe_ok,implies_true,and_true]
  constructor
  · rintro ⟨first,second⟩
    exact second _ (List.getElem?_eq_getElem first)
  · exact fun long => ⟨by omega,fun _ _ => long⟩

theorem uint16_ok {b : Bytes} (long : 2 ≤ b.length) : ∃ port, uint16 b = .ok port := by
  match b,long with
  | high :: low :: rest,_ => exact ⟨_,rfl⟩

theorem safe_datagramAddress (bb : Bytes) (atyp : UInt8) : Safe (datagramAddress bb atyp) := by
  unfold datagramAddress
  split
  · simp [safe_bind,safe_check,check_ok,safe_slice,safe_ok]
  split
  · simp [safe_bind,safe_check,check_ok,safe_slice,safe_ok]
  split
  · simp [safe_bind,safe_check,check_ok,safe_slice,safe_ok,safe_index,index_ok]
    omega
  · exact safe_err

theorem datagramAddress_domain {bb : Bytes} {got : Bytes × Nat} (ok : datagramAddress bb atypDomain = .ok got) :
    1 ≤ got.1.length := by
  obtain ⟨_,-,ok⟩ := bind_eq_ok ok
  obtain ⟨_,-,ok⟩ := bind_eq_ok ok
  obtain ⟨_,-,ok⟩ := bind_eq_ok ok
  obtain ⟨_,-,ok⟩ := bind_eq_ok ok
  obtain ⟨_,-,ok⟩ := bind_eq_ok ok
  cases ok
  exact Nat.le_add_left _ _

theorem safe_address {d : Datagram} (domain : d.atyp = atypDomain → 1 ≤ d.dstAddr.length) (port : 2 ≤ d.dstPort.length) :
    Safe d.address := by
  unfold Datagram.address
  split
  · next same => simp [safe_bind,safe_slice,safe_uint16,safe_ok,domain same,port]
  · simp [safe_bind,safe_uint16,safe_ok,port]

theorem safe_newDatagramFromBytes (bb : Bytes) : Safe (newDatagramFromBytes bb) := by
  simp only [newDatagramFromBytes,safe_bind,safe_check,check_ok,safe_index,index_ok,safe_slice,safe_datagramAddress,safe_ok,
    decide_eq_true_eq,true_and,implies_true,and_true]
  intro _ long
  refine ⟨long,fun atyp _ got found _ longer => ⟨by omega,fun port cut => ⟨by omega,fun data _ => ⟨by omega,fun rsv _ =>
    ⟨by omega,fun frag _ => safe_address ?_ ?_⟩⟩⟩⟩⟩
  · rintro rfl
    exact datagramAddress_domain found
  · rw [slice_ok cut]
    omega

theorem safe_returned (e : Option Err) : Safe (returned e) := by
  cases e <;> nofun

theorem safe_socks5Host (b : Bytes) (atyp : UInt8) : Safe (socks5Host b atyp) ↔
    (atyp = atypIPv4 ∨ atyp = atypIPv6 → 4 ≤ b.length) ∧ (atyp = atypDomain → 5 ≤ b.length) := by
  unfold socks5Host
  split
  · next plain =>
    have other : atyp ≠ atypDomain := by
      rcases plain with rfl | rfl <;> decide
    simp only [safe_slice,plain,other,true_implies,false_implies,and_true]
    omega
  next other =>
  simp only [other,false_implies,true_and]
  split
  · next domain =>
    simp only [safe_slice,domain,true_implies]
    omega
  · next third => exact iff_of_true (safe_ok _) (fun same => absurd same third)

theorem safe_onSocks5TCP (r : Reader) : Safe (s.onSocks5TCP out r) ↔ s.ConnectionFits r := by
  unfold onSocks5TCP ConnectionFits
  by_cases direct : s.proxyGroup = []
  · simp only [direct,ne_eq,not_true_eq_false,if_false,true_implies]
    cases r with
    | nil => exact iff_of_true safe_err nofun
    | cons segment rest =>
      have second : (segment.take 2048)[1]? = segment[1]? := List.getElem?_take_of_lt (by decide)
      have length : (segment.take 2048).length = min 2048 segment.length := List.length_take
      simp only [read,safe_bind,safe_check,check_ok,safe_index,index_ok,safe_slice,safe_ok,safe_uint16,safe_returned,
        Except.ok.injEq,forall_eq',decide_eq_true_eq,true_and,implies_true,and_true,List.head?_cons,Option.mem_some_iff,
        safe_socks5Host,second,length]
      constructor
      · intro safe atyp found
        have long := (List.getElem?_eq_some_iff.mp found).1
        obtain ⟨bounds,rest⟩ := safe () (by omega)
        obtain ⟨pair,rest⟩ := rest _ (if_pos ⟨bounds.1,length.ge⟩)
        obtain ⟨port,read⟩ := uint16_ok pair
        obtain ⟨plain,domain⟩ := (rest port read).2 atyp found
        exact ⟨fun same => (plain same).trans (min_le_right _ _),fun same => (domain same).trans (min_le_right _ _)⟩
      intro fits _ long
      refine ⟨by omega,fun port cut => ⟨by rw [slice_ok cut]; omega,fun _ _ => ⟨long,fun atyp found => ?_⟩⟩⟩
      obtain ⟨plain,domain⟩ := fits atyp found
      exact ⟨fun same => le_min (by decide) (plain same),fun same => le_min (by decide) (domain same)⟩
  · exact iff_of_true (by rw [if_pos direct]; exact safe_ok ()) (fun none => absurd none direct)

theorem safe_onRelayHttpReqV2 (r : Reader) : Safe (s.onRelayHttpReqV2 out r) ↔ s.UrlFits out r := by
  simp only [onRelayHttpReqV2,UrlFits,safe_bind,safe_orFail,orFail_ok,safe_index,index_ok,length_split,true_and,
    decide_eq_true_eq]
  apply forall₂_congr
  intro req _
  generalize removeAll "/group/http".toList 0 req.url = url
  by_cases enough : 2 ≤ url.count '/'
  · have long : 2 < (split url).length := by
      rw [length_split]
      omega
    simp only [List.getElem?_eq_getElem long,List.getElem?_eq_getElem (Nat.lt_of_succ_lt long),Option.some.injEq,forall_eq',
      enough,Nat.lt_succ_of_le enough,Nat.lt_succ_of_lt enough,true_and]
    by_cases websocket : req.connection = "Upgrade".toList ∧ req.upgrade = "websocket".toList
    · have served (c : Prop) [Decidable c] (e : Option Err) :
          Safe (if c then returned e else .error .panicked) ↔ c := by
        split
        · next holds => exact iff_of_true (safe_returned e) holds
        · next fails => exact iff_of_false (fun safe => safe rfl) fails
      simp [websocket,served]
    · simp only [websocket,if_false,safe_returned,implies_true,true_iff]
      exact fun connection upgrade => absurd ⟨connection,upgrade⟩ websocket
  apply iff_of_false _ (fun fits => enough fits.1)
  rintro ⟨first,rest⟩
  rw [← length_split] at first
  have := (rest _ (List.getElem?_eq_getElem first)).1
  omega

/-- No parser and no handler panics, exactly when what is received fits what they expect. -/
theorem relay_parsers_safe_iff (r : Reader) (bb : Bytes) :
    (Safe (newRequestFrom r) ∧ Safe (newDatagramFromBytes bb) ∧ Safe (s.onSocks5TCP out r) ∧
      Safe (s.onRelayHttpReqV2 out r)) ↔ RequestFits r ∧ s.ConnectionFits r ∧ s.UrlFits out r := by
  rw [safe_newRequestFrom,safe_onSocks5TCP,safe_onRelayHttpReqV2]
  exact and_congr_right fun _ => and_iff_right (safe_newDatagramFromBytes bb)

end Service

/-- A request for a domain, a connection to IPv4 without an address, and a request for the root all panic. -/
theorem relay_parsers_panic :
    newRequestFrom [[0],[3,1,97,0,80]] = .error .panicked ∧
      Service.onSocks5TCP ⟨[],[]⟩ ⟨fun _ => none,fun _ _ => none,fun _ => none,fun _ => none⟩ [[0,1,80]] =
        .error .panicked ∧
      Service.onRelayHttpReqV2 ⟨[],[]⟩ ⟨fun _ => some ⟨['/'],[],[]⟩,fun _ _ => none,fun _ => none,fun _ => none⟩ [] =
        .error .panicked :=
  ⟨rfl,rfl,rfl⟩

/-! ### Where a relayed request goes -/

def HttpRequest.isWS (req : HttpRequest) : Bool := req.connection = "Upgrade".toList ∧ req.upgrade = "websocket".toList

def HttpRequest.scheme (req : HttpRequest) : Text := if req.isWS then "ws".toList else "http".toList

/-- What the handler does with a request that goes to a URL. -/
def Outside.send (out : Outside) (req : HttpRequest) (url : Text) : Result Unit := do
  let scheme ← orFail .given (out.parse req.scheme url)
  if req.isWS then
    if scheme = "ws".toList ∨ scheme = "wss".toList then returned (out.serve scheme) else .error .panicked
  else returned (out.serve scheme)

/-- A request for a registered domain of a group goes to the address of the domain followed by the rest of its URL. -/
def Relays (group domain rest : Text) : Prop :=
  ∀ (s : Service) (out : Outside) (r : Reader) (req : HttpRequest) (addr : Text), out.readRequest r = some req →
    req.url = "/group/http".toList ++ ('/' :: group ++ '/' :: domain ++ rest) →
      s.getDomainAddrWithScheme req.scheme group domain = some addr →
        s.onRelayHttpReqV2 out r = out.send req (addr ++ rest)

section
variable {old url group domain rest : Text}

theorem removeAll_absent (absent : ¬old <:+: url) : removeAll old 0 url = url := by
  induction url with
  | nil => rfl
  | cons c rest ih =>
    simp only [List.infix_cons_iff,not_or] at absent
    simp [removeAll,absent.1,ih absent.2]

theorem removeAll_skip (l : Text) : removeAll old l.length (l ++ url) = removeAll old 0 url := by
  induction l with
  | nil => cases url <;> rfl
  | cons c l ih => exact ih

theorem removeAll_append (some : old ≠ []) : removeAll old 0 (old ++ url) = removeAll old 0 url := by
  cases old with
  | nil => exact absurd rfl some
  | cons c old => simp [removeAll,removeAll_skip]

theorem length_removeAll (n : Nat) : (removeAll old n url).length ≤ url.length := by
  fun_induction removeAll old n url with
  | case1 => simp
  | case2 n c rest ih | case3 c rest first ih => exact ih.trans (Nat.le_succ _)
  | case4 c rest other ih => exact Nat.succ_le_succ ih

/-- A text that occurs is taken away at least once. -/
theorem length_removeAll_lt (some : old ≠ []) (occurs : old <:+: url) :
    (removeAll old 0 url).length + old.length ≤ url.length := by
  induction url with
  | nil => exact absurd (List.eq_nil_of_infix_nil occurs) some
  | cons b rest ih =>
    by_cases first : old <+: b :: rest
    · obtain ⟨after,same⟩ := first
      rw [← same,removeAll_append some,List.length_append,Nat.add_comm]
      exact Nat.add_le_add_left (length_removeAll 0) _
    · have later := ih ((List.infix_cons_iff.mp occurs).resolve_left first)
      simp only [removeAll,first,if_false,List.length_cons]
      omega

theorem split_eq : split url = url.splitOn '/' := by
  induction url with
  | nil => rfl
  | cons c rest ih =>
    have long := length_split rest
    simp only [split,List.splitOn_cons_eq_if_modifyHead,beq_iff_eq,← ih]
    cases parts : split rest with
    | nil => simp [parts] at long
    | cons first others => rfl

theorem named_occurs (first : (split url)[1]? = some group) (second : (split url)[2]? = some domain) :
    '/' :: group ++ '/' :: domain <:+: url := by
  have joined : ['/'].intercalate (url.splitOn '/') = url := List.intercalate_splitOn '/'
  rw [← split_eq] at joined
  match parts : split url with
  | a :: b :: c :: more =>
    rw [parts] at first second joined
    cases first
    cases second
    rw [← joined]
    cases more with
    | nil => exact ⟨a,[],by simp [List.intercalate_cons_cons]⟩
    | cons m more => exact ⟨a,'/' :: ['/'].intercalate (m :: more),by simp [List.intercalate_cons_cons]⟩
  | [] | [_] | [_,_] => simp [parts] at second

theorem head_split : (split url)[0]? = some (url.takeWhile (· ≠ '/')) := by
  induction url with
  | nil => rfl
  | cons c rest ih =>
    unfold split
    cases parts : split rest with
    | nil => simp [parts] at ih
    | cons first others => by_cases slash : c = '/' <;> simp_all

theorem onRelayHttpReqV2_eq (s : Service) {out : Outside} {r : Reader} {req : HttpRequest}
    (read : out.readRequest r = some req)
    (named : req.url = "/group/http".toList ++ ('/' :: group ++ '/' :: domain ++ rest)) :
    s.onRelayHttpReqV2 out r = (do
      let url := removeAll "/group/http".toList 0 ('/' :: group ++ '/' :: domain ++ rest)
      let group ← index (split url) 1
      let domain ← index (split url) 2
      let addr ← orFail .domainParse (s.getDomainAddrWithScheme req.scheme group domain)
      out.send req (addr ++ removeAll ('/' :: group ++ '/' :: domain) 0 url)) := by
  rw [← removeAll_append (by decide),← named,Service.onRelayHttpReqV2,read]
  rfl

theorem getDomain_only {scheme g d addr : Text}
    (found : Service.getDomainAddrWithScheme ⟨[],[⟨group,[],[⟨domain,[]⟩]⟩]⟩ scheme g d = some addr) :
    group = g ∧ domain = d ∧ [] = addr := by
  simp only [Service.getDomainAddrWithScheme,List.findSome?_singleton] at found
  split at found
  · next same =>
    obtain ⟨agent,among,rfl⟩ := Option.map_eq_some_iff.mp found
    have chosen := List.find?_some among
    have member := List.mem_of_find?_eq_some among
    split at member
    · cases member
    split at member
    · cases List.mem_singleton.mp member
      exact ⟨same,of_decide_eq_true chosen,rfl⟩
    · cases member
  · cases found

/-- A parser that accepts the rest of the URL alone tells what is parsed. -/
theorem Relays.parsed (relays : Relays group domain rest) :
    let url := removeAll "/group/http".toList 0 ('/' :: group ++ '/' :: domain ++ rest)
    (split url)[1]? = some group ∧ (split url)[2]? = some domain ∧
      removeAll ('/' :: group ++ '/' :: domain) 0 url = rest := by
  let req : HttpRequest := ⟨"/group/http".toList ++ ('/' :: group ++ '/' :: domain ++ rest),[],[]⟩
  let out : Outside := ⟨fun _ => some req,fun _ url => if url = rest then some [] else none,fun _ => none,fun _ => none⟩
  have sent : out.send req rest = .ok () := by
    simp only [Outside.send,out,if_true]
    rfl
  have ran := relays ⟨[],[⟨group,[],[⟨domain,[]⟩]⟩]⟩ out [] req [] rfl rfl
    (by simp [Service.getDomainAddrWithScheme,HttpRequest.scheme,HttpRequest.isWS,req])
  rw [onRelayHttpReqV2_eq _ rfl rfl] at ran
  obtain ⟨g,first,ran⟩ := bind_eq_ok (ran.trans sent)
  obtain ⟨d,second,ran⟩ := bind_eq_ok ran
  obtain ⟨addr,found,ran⟩ := bind_eq_ok ran
  obtain ⟨rfl,rfl,rfl⟩ := getDomain_only (orFail_ok.mp found)
  obtain ⟨_,parsed,-⟩ := bind_eq_ok ran
  exact ⟨index_ok.mp first,index_ok.mp second,(Option.ite_none_right_eq_some.mp (orFail_ok.mp parsed)).1⟩

end

/-- A relayed request goes to the address of its domain followed by the rest of its URL exactly when neither the prefix
    nor the group and the domain occur once more in the URL and no query follows the domain. -/
theorem relays_iff (group domain rest : Text) (plain : '/' ∉ group) (plain' : '/' ∉ domain)
    (begins : rest = [] ∨ rest.head? = some '/' ∨ rest.head? = some '?') :
    Relays group domain rest ↔
      ¬ "/group/http".toList <:+: '/' :: group ++ '/' :: domain ++ rest ∧
        ¬ '/' :: group ++ '/' :: domain <:+: rest ∧ rest.head? ≠ some '?' := by
  have filled : '/' :: group ++ '/' :: domain ≠ [] := by simp
  have pieces : split ('/' :: group ++ '/' :: domain ++ rest) = [] :: group :: split (domain ++ rest) := by
    rw [split_eq,split_eq,List.append_assoc]
    exact congrArg _ (List.splitOn_append_cons_self_of_not_mem plain _)
  have second : (split (domain ++ rest))[0]? = some (domain ++ rest.takeWhile (· ≠ '/')) := by
    rw [head_split,List.takeWhile_append_of_pos (by grind)]
  constructor
  · intro relays
    obtain ⟨group',domain',whole⟩ := relays.parsed
    have shorter := length_removeAll_lt filled (named_occurs group' domain')
    rw [whole] at shorter
    have unprefixed : ¬ "/group/http".toList <:+: '/' :: group ++ '/' :: domain ++ rest := by
      intro again
      have less := length_removeAll_lt (by decide) again
      simp only [List.length_append] at shorter less
      have long : "/group/http".toList.length = 11 := rfl
      omega
    rw [removeAll_absent unprefixed] at whole domain'
    refine ⟨unprefixed,fun again => ?_,fun query => ?_⟩
    · rw [removeAll_append filled] at whole
      have less := length_removeAll_lt filled again
      rw [whole] at less
      simp only [List.length_append,List.length_cons] at less
      omega
    · rw [pieces,List.getElem?_cons_succ,List.getElem?_cons_succ,second] at domain'
      cases rest with
      | nil => cases query
      | cons c rest =>
        cases query
        simp at domain'
  · rintro ⟨unprefixed,once,unqueried⟩ s out r req addr read named found
    have nothing : rest.takeWhile (· ≠ '/') = [] := by
      cases rest with
      | nil => rfl
      | cons c rest =>
        rcases begins with none | slash | query
        · cases none
        · cases slash
          rfl
        · exact absurd query unqueried
    rw [nothing,List.append_nil] at second
    have left := (removeAll_append filled).trans (removeAll_absent once)
    rw [onRelayHttpReqV2_eq s read named,removeAll_absent unprefixed]
    simp only [index,pieces,List.getElem?_cons_succ,List.getElem?_cons_zero,second,orFail,found,bind,Except.bind]
    exact congrArg (fun t => out.send req (addr ++ t)) left

theorem relays_plain : Relays ['g'] ['d'] "/x".toList :=
  (relays_iff ['g'] ['d'] "/x".toList (by decide) (by decide) (by decide)).mpr (by decide)

/-- The part of the path that repeats the group and the domain is lost. -/
theorem path_cut : ¬Relays ['g'] ['d'] "/x/g/d".toList := fun relays => absurd relays.parsed.2.2 (by decide)

end FavorX.RelayParsers
