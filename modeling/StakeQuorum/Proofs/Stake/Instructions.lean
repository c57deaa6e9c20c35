import StakeQuorum.Proofs.Account.Acceptance
import StakeQuorum.Proofs.Stake.Requests

/-! # Instructions and direct calls

An instruction has one encoding. Whoever has it carried out, being among the signers, gets what the
direct call gives: the same outcome, the same ledger and the same calls of listeners and factories.
Other signers make no difference, and bytes that encode no instruction have no effect.
-/

namespace StakeQuorum

def Notice.isLog : Notice → Bool
  | .log _ => true
  | .told .. | .asked _ => false

namespace Stake

open Host Reader Store
variable {κ : Type} {db : Database} {program : Bytes} {signers : List Bytes}
  {staker account requester data : Bytes} {amount : Amount} {lockPeriod : Int64}

/-! ### Encodings -/

namespace Instruction

variable {i : Instruction}

theorem header_eq (tag : UInt8) (amount : Amount) : header tag amount =
    Field.encode (.u8 version) ++ (Field.encode (.u8 tag) ++ Field.encode (.u64 amount)) := by
  simp [header, Field.encodeAll]

theorem decode?_encode (i : Instruction) : decode? i.encode = some i := by
  have hr : Reads reader i.encode (some i) := by
    cases i with
    | createStake amount lock =>
      rw [encode, header_eq, List.append_assoc, List.append_assoc]
      refine Reads.versioned version ?_
      refine (reads_u8 createTag).bind ((reads_u64 amount).bind ?_)
      rw [if_pos rfl]
      exact (reads_i64 lock).map _
    | withdraw amount =>
      rw [encode, header_eq]
      exact Reads.versioned version ((reads_u8 withdrawTag).bind ((reads_u64 amount).map _))
  rw [decode?, hr.decode?, Option.join_some]

theorem eq_encode_of_decode? (h : decode? data = some i) : data = i.encode := by
  rw [decode?, Option.join_eq_some_iff, Reader.decode?_eq_some_iff] at h
  obtain ⟨s₁, rfl, hbody⟩ := eq_of_versioned h
  obtain ⟨tag, s₂, ht, h⟩ := Reader.bind_eq_ok_iff.1 hbody
  obtain ⟨amount, s₃, ha, h⟩ := Reader.bind_eq_ok_iff.1 h
  have hheader : Field.encode (.u8 version) ++ s₁ = header tag amount ++ s₃ := by
    rw [eq_of_u8 ht, eq_of_u64 ha, header_eq]
    simp only [List.append_assoc]
  split at h
  · rename_i htag
    obtain ⟨lock, _, hl, h⟩ := Reader.bind_eq_ok_iff.1 h
    simp only [pure_run, Prod.mk.injEq, Except.ok.injEq, Option.some.injEq] at h
    obtain ⟨rfl, rfl⟩ := h
    rw [hheader, eq_of_i64 hl, htag, encode, List.append_nil]
  split at h
  · rename_i htag
    simp only [pure_run, Prod.mk.injEq, Except.ok.injEq, Option.some.injEq] at h
    obtain ⟨rfl, rfl⟩ := h
    rw [hheader, htag, encode, List.append_nil]
  · simp at h

theorem decode?_eq_none_iff : decode? data = none ↔ ∀ i : Instruction, data ≠ i.encode := by
  rw [Option.eq_none_iff_forall_ne_some]
  constructor
  · rintro h i rfl
    exact h i (decode?_encode i)
  · intro h i hi
    exact h i (eq_encode_of_decode? hi)

end Instruction

/-! ### Signers -/

theorem commit_congr {signers' : List Bytes} {changes : List Change} {rejected done : Bytes}
    {record : Record} (h : ∀ c ∈ changes, SignedAlike db program signers signers' c) :
    commit db program signers changes rejected done record =
      commit db program signers' changes rejected done record := by
  rw [commit, commit, apply_congr h]

theorem create_congr (h : staker ∈ signers) :
    create db program signers staker account amount lockPeriod =
      create db program [staker] staker account amount lockPeriod := by
  have hcheck : checkCreate signers staker account amount =
      checkCreate [staker] staker account amount := by
    simp [checkCreate, h]
  unfold create
  rw [hcheck]
  split
  · rfl
  · refine commit_congr ?_
    intro c hc
    simp only [List.mem_cons, List.not_mem_nil, or_false] at hc
    rcases hc with rfl | rfl
    · exact .inr (.inl (by simp [Change.key, h]))
    · exact .inl rfl

theorem withdraw_congr (h : requester ∈ signers) :
    withdraw db program signers account requester amount =
      withdraw db program [requester] account requester amount := by
  unfold withdraw
  rw [if_neg (not_not.2 h), if_neg (by simp)]
  refine Traced.bind_congr ?_
  cases ha : (account? db account).value with
  | none => rfl
  | some a =>
    simp only
    cases hc : checkWithdraw program account requester amount a with
    | error e => rfl
    | ok record =>
      refine commit_congr ?_
      intro c hm
      simp only [List.mem_cons, List.not_mem_nil, or_false] at hm
      rcases hm with rfl | rfl
      · -- the stake account belongs to the program, which takes from it without a signature
        refine .inr (.inr ?_)
        intro b hb
        obtain rfl : a = b := Option.some.inj (ha.symm.trans hb)
        exact (checkWithdraw_eq_ok_iff.1 hc).1
      · exact .inl rfl

theorem create_of_unsigned (h : staker ∉ signers) :
    ∃ e, (create db program signers staker account amount lockPeriod).value = (.error e, db) := by
  unfold create
  cases hc : checkCreate signers staker account amount with
  | error e => exact ⟨e, rfl⟩
  | ok u => exact absurd (checkCreate_eq_ok_iff.1 hc).2.1 h

theorem withdraw_of_unsigned (h : requester ∉ signers) :
    (withdraw db program signers account requester amount).value =
      (.error (.unsigned requester), db) := by
  rw [withdraw, if_pos h]
  rfl

theorem process_of_unsigned (db : Database) (program account data : Bytes) (h : staker ∉ signers) :
    ∃ e, (process db program signers staker account data).value = (.error e, db) := by
  rw [process_value]
  cases Instruction.decode? data with
  | none => exact ⟨_, rfl⟩
  | some i =>
    cases i with
    | createStake => exact create_of_unsigned h
    | withdraw => exact ⟨_, withdraw_of_unsigned h⟩

/-! ### What is seen from outside -/

namespace Ledger

variable {factories : Factories κ} {l : Ledger κ} {q : Request} {α : Type}

/-- The calls that listeners and client factories get, in order. -/
def calls (x : Noticed α) : List Notice := x.trace.filter fun n => !n.isLog

theorem calls_lift_bind {β : Type} (x : Logged α) (f : α → Noticed β) :
    calls (liftM x >>= f) = calls (f x.value) := by
  have htrace : (liftM x >>= f).trace = x.trace.map Notice.log ++ (f x.value).trace := rfl
  have hlogs : (x.trace.map Notice.log).filter (fun n => !n.isLog) = [] := by
    rw [List.filter_eq_nil_iff]
    intro n hn
    obtain ⟨note, -, rfl⟩ := List.mem_map.1 hn
    simp [Notice.isLog]
  rw [calls, htrace, List.filter_append, hlogs, List.nil_append, calls]

/-- Who is called follows from the outcome of the transaction. -/
theorem calls_serve (factories : Factories κ) (l : Ledger κ) (q : Request) :
    calls (serve factories l q) =
      calls (announce factories l q.account (q.transact l.db l.program).value) := by
  cases q <;> exact calls_lift_bind _ _

theorem serve_of_error {e : StakeError} (h : (q.transact l.db l.program).value = (.error e, db)) :
    (serve factories l q).value = (.refused e, l) ∧ calls (serve factories l q) = [] := by
  obtain rfl := transact_refused h
  rw [serve_value, calls_serve, h]
  exact ⟨rfl, rfl⟩

theorem serve_congr (q q' : Request) (ha : q.account = q'.account)
    (h : (q.transact l.db l.program).value = (q'.transact l.db l.program).value) :
    (serve factories l q).value = (serve factories l q').value ∧
      calls (serve factories l q) = calls (serve factories l q') := by
  rw [serve_value, serve_value, calls_serve, calls_serve, ha, h]
  exact ⟨rfl, rfl⟩

/-- An instruction is carried out as the direct call is if the staker has signed. Otherwise it is
refused without an effect, and so is whatever does not encode an instruction. -/
theorem instruction_agrees (factories : Factories κ) (l : Ledger κ) (signers : List Bytes)
    (staker account data : Bytes) :
    let served := processInstruction factories l signers staker account data
    (∀ amount lockPeriod, data = (Instruction.createStake amount lockPeriod).encode →
      staker ∈ signers →
        let direct := createStake factories l staker account amount lockPeriod
        served.value = direct.value ∧ calls served = calls direct) ∧
    (∀ amount, data = (Instruction.withdraw amount).encode → staker ∈ signers →
      let direct := withdrawStake factories l account staker amount
      served.value = direct.value ∧ calls served = calls direct) ∧
    (staker ∉ signers → ∃ e, served.value = (.refused e, l) ∧ calls served = []) ∧
    ((∀ i : Instruction, data ≠ i.encode) → ∃ e : StakeError, e.code = .invalidInstruction ∧
      served.value = (.refused e, l) ∧ calls served = []) := by
  refine ⟨?_, ?_, ?_, ?_⟩
  · rintro amount lockPeriod rfl hsigned
    refine serve_congr (.process signers staker account _)
      (.create staker account amount lockPeriod) rfl ?_
    simp only [Request.transact, process_value, Instruction.decode?_encode, create_congr hsigned]
  · rintro amount rfl hsigned
    refine serve_congr (.process signers staker account _) (.withdraw account staker amount) rfl ?_
    simp only [Request.transact, process_value, Instruction.decode?_encode, withdraw_congr hsigned]
  · intro hunsigned
    obtain ⟨e, he⟩ := process_of_unsigned l.db l.program account data hunsigned
    exact ⟨e, serve_of_error (q := .process signers staker account data) he⟩
  · intro hdata
    have hrefused : (process l.db l.program signers staker account data).value =
        (.error (.badInstruction data.length), l.db) := by
      rw [process_value, Instruction.decode?_eq_none_iff.2 hdata]
    exact ⟨_, rfl, serve_of_error (q := .process signers staker account data) hrefused⟩

def signatory : Bytes := "DYw8jCTfwHNRJhhmFcbXvVDTqWMEVFBX6ZKUmG5CNSKK"

/-- A staker stakes by an instruction that somebody else has signed too, and a listener is told.
With the other signature alone, or with no instruction, nothing happens. -/
theorem instruction_agrees_countersigned :
    let factories : Factories Unit := fun _ _ => .ok none
    let l : Ledger Unit :=
      (addListener { db := deposited {} signatory 100000000000 } (.observer none)).2
    let data := (Instruction.createStake 12000000000 3600).encode
    let served := processInstruction factories l ["notary", signatory] signatory "stake" data
    let unsigned := processInstruction factories l ["notary"] signatory "stake" data
    let undecoded := processInstruction factories l ["notary", signatory] signatory "stake" []
    signatory ∈ (["notary", signatory] : List Bytes) ∧
      served.value = (createStake factories l signatory "stake" 12000000000 3600).value ∧
      calls served = [.told 1 "stake" (newRecord signatory 12000000000 3600)] ∧
    signatory ∉ (["notary"] : List Bytes) ∧
      (∃ e, unsigned.value = (.refused e, l)) ∧ calls unsigned = [] ∧
    (∀ i : Instruction, [] ≠ i.encode) ∧
      (∃ e : StakeError, e.code = .invalidInstruction ∧ undecoded.value = (.refused e, l)) ∧
      calls undecoded = [] := by
  intro factories l data served unsigned undecoded
  have hsigned : signatory ∈ (["notary", signatory] : List Bytes) := by simp
  have hunsigned : signatory ∉ (["notary"] : List Bytes) := by decide
  have hdata : ∀ i : Instruction, [] ≠ i.encode := Instruction.decode?_eq_none_iff.1 (by decide)
  obtain ⟨hvalue, hcalls⟩ := (instruction_agrees factories l ["notary", signatory] signatory "stake"
    data).1 12000000000 3600 rfl hsigned
  obtain ⟨e, he, hnone⟩ :=
    (instruction_agrees factories l ["notary"] signatory "stake" data).2.2.1 hunsigned
  obtain ⟨e', hcode, he', hnone'⟩ :=
    (instruction_agrees factories l ["notary", signatory] signatory "stake" []).2.2.2 hdata
  refine ⟨hsigned, hvalue, hcalls.trans ?_, hunsigned, ⟨e, he⟩, hnone, hdata, ⟨e', hcode, he'⟩,
    hnone'⟩
  decide +kernel

end Ledger

end Stake

end StakeQuorum
