import FavorX.FiniteMaps

/-!
The cheque store: the last cheque received from every issuer. Accepted payouts
only grow, and what the accepted cheques brought adds up to the stored payout
(`receive_sound`).
-/
namespace FavorX.Cheques
open FiniteMaps

abbrev ChainAddress := BitVec 160

/-- A cheque. A payout that is not there is a nil pointer. -/
structure Cheque where
  recipient : ChainAddress
  beneficiary : ChainAddress
  cumulativePayout : Option Int
deriving DecidableEq

structure SignedCheque extends Cheque where
  signature : List UInt8

/-- The ways to receive no cheque. `R` and `F` are what recovering a signer and
    what the state store can fail with. -/
inductive Err (R F : Type)
  | wrongBeneficiary
  | chequeInvalid
  | chequeNotIncreasing
  | recover (e : R)
  | storage (e : F)
  | panicked

section
variable {R F : Type}

/-- What the cheque store is set up with. The function that recovers the issuer
    of a cheque is not part of it; it returns an address only if the cheque was
    signed with the key of that address. -/
structure ChequeStore (R : Type) where
  recipient : ChainAddress
  chainID : Int
  recoverChequeFunc : SignedCheque → Int → Except R ChainAddress
  SignedBy : SignedCheque → ChainAddress → Prop
  recovers : ∀ cheque issuer, recoverChequeFunc cheque chainID = .ok issuer → SignedBy cheque issuer

/-- The cheques under their keys, which tell all addresses apart. -/
abbrev Received := Map ChainAddress SignedCheque

/-- A call: the cheque, and how the state store fails if it does. -/
structure Call (F : Type) where
  cheque : SignedCheque
  getFails : Option F := none
  putFails : Option F := none

/-- The last cumulative payout; a nil pointer stays one. -/
def lastPayout (s : Received) (beneficiary : ChainAddress) : Option Int :=
  match s.lookup beneficiary with
  | none => some 0
  | some cheque => cheque.cumulativePayout

def receiveCheque (cs : ChequeStore R) (call : Call F) (s : Received) : Except (Err R F) Int × Received :=
  let cheque := call.cheque
  if cheque.recipient ≠ cs.recipient then (.error .wrongBeneficiary,s)
  else match cs.recoverChequeFunc cheque cs.chainID with
    | .error e => (.error (.recover e),s)
    | .ok issuer =>
      if issuer ≠ cheque.beneficiary then (.error .chequeInvalid,s)
      else match call.getFails with
        | some e => (.error (.storage e),s)
        | none =>
          match cheque.cumulativePayout, lastPayout s cheque.beneficiary with
          | some payout, some last =>
            let amount := payout - last
            if amount ≤ 0 then (.error .chequeNotIncreasing,s)
            else match call.putFails with
              | some e => (.error (.storage e),s)
              | none => (.ok amount,s.insert cheque.beneficiary cheque)
          | _, _ => (.error .panicked,s)

/-- The cheques after a sequence of calls, and what each call returned for whom. -/
def receiveCheques (cs : ChequeStore R) (calls : List (Call F)) :
    List (ChainAddress × Except (Err R F) Int) × Received :=
  calls.foldl (fun (returned,s) call =>
    (returned ++ [(call.cheque.beneficiary,(receiveCheque cs call s).1)],(receiveCheque cs call s).2)) ([],∅)

/-- What the accepted calls for a beneficiary returned, in total. -/
def earned (returned : List (ChainAddress × Except (Err R F) Int)) (b : ChainAddress) : Int :=
  (returned.map (fun r => if r.1 = b then r.2.toOption.getD 0 else 0)).sum

/-- The stored cumulative payout of a beneficiary, 0 if there is none. -/
def payout (s : Received) (b : ChainAddress) : Int := ((s.lookup b).bind (·.cumulativePayout)).getD 0

/-- Every stored cheque is made out to this node, signed by the one it is stored
    for, and has a payout. -/
def Sound (cs : ChequeStore R) (s : Received) : Prop :=
  ∀ b cheque, s.lookup b = some cheque →
    cheque.recipient = cs.recipient ∧ cs.SignedBy cheque b ∧ cheque.cumulativePayout.isSome

theorem earned_snoc (returned : List (ChainAddress × Except (Err R F) Int)) (a b : ChainAddress)
    (r : Except (Err R F) Int) :
    earned (returned ++ [(a,r)]) b = earned returned b + if a = b then r.toOption.getD 0 else 0 := by
  simp [earned]

theorem payout_of_last {s : Received} {b : ChainAddress} {last : Int} (found : lastPayout s b = some last) :
    payout s b = last := by
  unfold lastPayout at found
  unfold payout
  cases held : s.lookup b with
  | none => simpa [held] using found
  | some cheque => simp_all

variable (cs : ChequeStore R) (calls : List (Call F))

/-- A call changes nothing and fails, or it stores a cheque that is made out to
    this node and signed, and returns by how much the payout grew. -/
theorem receiveCheque_cases (s : Received) (call : Call F) :
    (∃ e, receiveCheque cs call s = (.error e,s)) ∨
    ∃ p, call.cheque.cumulativePayout = some p ∧ payout s call.cheque.beneficiary < p ∧
      call.cheque.recipient = cs.recipient ∧ cs.SignedBy call.cheque call.cheque.beneficiary ∧
      receiveCheque cs call s =
        (.ok (p - payout s call.cheque.beneficiary),s.insert call.cheque.beneficiary call.cheque) := by
  unfold receiveCheque
  dsimp only
  split
  · exact .inl ⟨_,rfl⟩
  next mine =>
  cases recovered : cs.recoverChequeFunc call.cheque cs.chainID with
  | error e => exact .inl ⟨_,rfl⟩
  | ok issuer =>
    dsimp only
    split
    · exact .inl ⟨_,rfl⟩
    next signed =>
    have issued := cs.recovers _ _ recovered
    rw [not_not.mp signed] at issued
    cases call.getFails with
    | some e => exact .inl ⟨_,rfl⟩
    | none =>
      dsimp only
      split
      · next p last paid found =>
        rw [payout_of_last found]
        split
        · exact .inl ⟨_,rfl⟩
        next more =>
        cases call.putFails with
        | some e => exact .inl ⟨_,rfl⟩
        | none => exact .inr ⟨p,paid,by omega,not_not.mp mine,issued,rfl⟩
      · exact .inl ⟨_,rfl⟩

theorem payout_insert (s : Received) {cheque : SignedCheque} {p : Int} (paid : cheque.cumulativePayout = some p)
    (a b : ChainAddress) : payout (s.insert a cheque) b = if b = a then p else payout s b := by
  unfold payout
  rw [lookup_insert_eq]
  split <;> simp [paid]

/-- What holds after any sequence of calls: the stored cheques are sound and
    the payouts are what the calls have returned. -/
def Accounted (cs : ChequeStore R) (after : List (ChainAddress × Except (Err R F) Int) × Received) : Prop :=
  Sound cs after.2 ∧ ∀ b, earned after.1 b = payout after.2 b

theorem accounted_step {cs : ChequeStore R} {returned : List (ChainAddress × Except (Err R F) Int)} {s : Received}
    (accounted : Accounted cs (returned,s)) {call : Call F} :
    Accounted cs (returned ++ [(call.cheque.beneficiary,(receiveCheque cs call s).1)],(receiveCheque cs call s).2) := by
  obtain ⟨sound,total⟩ := accounted
  rcases receiveCheque_cases cs s call with ⟨e,run⟩ | ⟨p,paid,_,mine,signed,run⟩
  · refine ⟨by simpa only [run] using sound,fun b => ?_⟩
    simpa [run,earned_snoc,Except.toOption] using total b
  rw [run]
  refine ⟨fun b other held => ?_,fun b => ?_⟩
  · simp only [lookup_insert_eq] at held
    split at held
    · next same =>
      cases held
      exact ⟨mine,same ▸ signed,by simp [paid]⟩
    · exact sound b other held
  simp only [earned_snoc,payout_insert s paid,Except.toOption,Option.getD_some]
  have before := total b
  by_cases same : b = call.cheque.beneficiary
  · subst same
    simp only [if_true] at before ⊢
    omega
  · simp only [Ne.symm same,same,if_false,add_zero]
    exact before

theorem accounted_run : Accounted cs (receiveCheques cs calls) := by
  induction calls using List.reverseRecOn with
  | nil => exact ⟨fun b cheque held => by simp [receiveCheques] at held,fun b => rfl⟩
  | append_singleton calls call ih =>
    simpa [receiveCheques] using accounted_step ih

/-- After any calls with any cheques: every cheque stored for a beneficiary is
    made out to this node and signed by the beneficiary; the stored payout is
    the sum of what was returned for the beneficiary; and a further call either
    fails and changes no stored cheque, or is accepted and lets the stored
    payout grow by the positive amount it returns. -/
theorem receive_sound (cs : ChequeStore R) (calls : List (Call F)) :
    (∀ b cheque, (receiveCheques cs calls).2.lookup b = some cheque →
      cheque.recipient = cs.recipient ∧ cs.SignedBy cheque b) ∧
    (∀ b, earned (receiveCheques cs calls).1 b = payout (receiveCheques cs calls).2 b) ∧
    ∀ call : Call F, match receiveCheque cs call (receiveCheques cs calls).2 with
      | (.error _,s) => s = (receiveCheques cs calls).2
      | (.ok amount,s) =>
        payout (receiveCheques cs calls).2 call.cheque.beneficiary < payout s call.cheque.beneficiary ∧
        payout s call.cheque.beneficiary = payout (receiveCheques cs calls).2 call.cheque.beneficiary + amount ∧
        ∀ b, b ≠ call.cheque.beneficiary → s.lookup b = (receiveCheques cs calls).2.lookup b := by
  obtain ⟨sound,total⟩ := accounted_run cs calls
  refine ⟨fun b cheque held => ⟨(sound b cheque held).1,(sound b cheque held).2.1⟩,total,fun call => ?_⟩
  rcases receiveCheque_cases cs (receiveCheques cs calls).2 call with ⟨e,run⟩ | ⟨p,paid,more,_,_,run⟩
  · rw [run]
  rw [run]
  refine ⟨?_,?_,fun b other => ?_⟩
  · rw [payout_insert _ paid,if_pos rfl]
    exact more
  · rw [payout_insert _ paid,if_pos rfl]
    omega
  · rw [lookup_insert_eq,if_neg other]

end
end FavorX.Cheques
