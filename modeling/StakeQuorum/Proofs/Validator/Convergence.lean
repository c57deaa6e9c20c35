import StakeQuorum.Proofs.Interleaving
import StakeQuorum.Proofs.Stake.Registries
import StakeQuorum.Proofs.Validator.Members

/-! # Refreshes converge

A set that keeps only clients its factory has made is rebuilt as if there had been none before. So
it does not matter which refreshes came first: what is installed was read from the current stakes,
unless a refresh is still to read them. When no refresh is left, the set is the one that the current
stakes ask for, and every refresh that is due can come to its end.
-/

namespace StakeQuorum.ValidatorSet

variable {κ : Type} {factory : Option (ClientFactory κ)} {minimum : Amount}
  {old new set : ValidatorSet κ} {stakes : Stakes} {o : Bytes}

/-! ### Sets of new clients -/

/-- Every member has the client that the factory makes for it. -/
def Made (factory : Option (ClientFactory κ)) (set : ValidatorSet κ) : Prop :=
  ∀ o v, set.get? o = some v → (clientFor factory {} o).value = .ok v.client

theorem made_empty (factory : Option (ClientFactory κ)) : Made factory {} :=
  fun _ _ h => nomatch h

theorem Made.clientFor_eq (h : Made factory old) (o : Bytes) :
    (clientFor factory old o).value = (clientFor factory {} o).value := by
  cases ho : old.get? o with
  | some v =>
    rw [h o v ho]
    simp only [clientFor, ho]
    rfl
  | none =>
    have hempty : ({} : ValidatorSet κ).get? o = none := rfl
    simp only [clientFor, ho, hempty]

theorem Made.rebuild_eq (h : Made factory old) (minimum : Amount) (es : List (Bytes × Amount))
    (new : ValidatorSet κ) :
    (rebuild factory minimum old es new).value = (rebuild factory minimum {} es new).value := by
  induction es generalizing new with
  | nil => rfl
  | cons e es ih =>
    obtain ⟨o, total⟩ := e
    simp only [rebuild]
    split
    · exact ih new
    · cases Address.derive o with
      | error e => rfl
      | ok internal =>
        simp only [Traced.value_bind, h.clientFor_eq]
        cases (clientFor factory {} o).value with
        | error f => rfl
        | ok client => exact ih _

theorem Made.refresh_eq (h : Made factory old) (minimum : Amount) (stakes : Stakes) :
    (refresh factory minimum old stakes).value = (refresh factory minimum {} stakes).value := by
  rw [refresh_value, refresh_value, h.rebuild_eq]

theorem made_of_refresh (h : (refresh factory minimum {} stakes).value = .ok set) :
    Made factory set := by
  intro o v ho
  exact ((get?_of_refresh h).1 ho).2.client

theorem exists_refresh (minimum : Amount) (old : ValidatorSet κ)
    (hf : ∀ make ∈ factory, Steady make)
    (hs : ∀ s ∈ stakes, Address.isExternal s.2.owner = true) :
    ∃ set, (refresh factory minimum old stakes).value = .ok set := by
  cases h : (refresh factory minimum old stakes).value with
  | ok set => exact ⟨set, rfl⟩
  | error f =>
    obtain ⟨o, -, hfails⟩ := (refresh_error_iff hs).1 ⟨f, h⟩
    exact absurd hfails (Steady.not_fails hf)

def Phase.isInside : Phase → Bool
  | .due | .over => false
  | .locked | .read _ | .installed => true

def Phase.left : Phase → Nat
  | .due => 4
  | .locked => 3
  | .read _ => 2
  | .installed => 1
  | .over => 0

namespace Following

open Moves (Reaches)

variable {s s' : Following κ} {m : Move} {i : Nat}

/-! ### Moves -/

theorem step_acquire (h : s.step factory minimum (.acquire i) = some s') :
    s.refreshes[i]? = some .due ∧ s.holder = none ∧
      s' = { s.advance i .locked with holder := some i } := by
  simp only [step] at h
  split at h
  · exact ⟨‹_›, ‹_›, (Option.some.inj h).symm⟩
  · cases h

theorem step_read (h : s.step factory minimum (.read i) = some s') :
    s.refreshes[i]? = some .locked ∧ s' = s.advance i (.read s.stakes) := by
  simp only [step] at h
  split at h
  · exact ⟨‹_›, (Option.some.inj h).symm⟩
  · cases h

theorem step_install (h : s.step factory minimum (.install i) = some s') : ∃ stakes,
    s.refreshes[i]? = some (.read stakes) ∧
      s' = { s.advance i .installed with
        members := successor factory minimum s.members stakes } := by
  simp only [step] at h
  split at h
  · exact ⟨_, ‹_›, (Option.some.inj h).symm⟩
  · cases h

theorem step_release (h : s.step factory minimum (.release i) = some s') :
    s.refreshes[i]? = some .installed ∧ s' = { s.advance i .over with holder := none } := by
  simp only [step] at h
  split at h
  · exact ⟨‹_›, (Option.some.inj h).symm⟩
  · cases h

/-! ### The lock -/

/-- The refresh that holds the lock is the only one inside. -/
def Locked (s : Following κ) : Prop :=
  ∀ i, s.holder = some i ↔ (s.refreshes[i]?).any Phase.isInside = true

theorem any_inside_set {refreshes : List Phase} {phase : Phase} (h : refreshes[i]? = some phase)
    (phase' : Phase) (j : Nat) : ((refreshes.set i phase')[j]?).any Phase.isInside =
      if i = j then phase'.isInside else (refreshes[j]?).any Phase.isInside := by
  obtain ⟨hi, -⟩ := List.getElem?_eq_some_iff.1 h
  rw [List.getElem?_set]
  split <;> rfl

theorem any_inside_append_due (refreshes : List Phase) (j : Nat) :
    ((refreshes ++ [.due])[j]?).any Phase.isInside = (refreshes[j]?).any Phase.isInside := by
  rw [List.getElem?_append]
  split
  · rfl
  · rename_i hj
    rw [List.getElem?_eq_none (Nat.le_of_not_lt hj)]
    cases j - refreshes.length <;> rfl

theorem Locked.holder_eq (h : s.Locked) {phase : Phase} (hi : s.refreshes[i]? = some phase)
    (hinside : phase.isInside = true) : s.holder = some i :=
  (h i).2 (by rw [hi]; exact hinside)

theorem Locked.inside (h : s.Locked) {phase phase' : Phase} (hi : s.refreshes[i]? = some phase)
    (hinside : phase.isInside = true) (hinside' : phase'.isInside = true) (j : Nat) :
    s.holder = some j ↔ ((s.refreshes.set i phase')[j]?).any Phase.isInside = true := by
  rw [any_inside_set hi]
  split
  · subst j
    exact iff_of_true (h.holder_eq hi hinside) hinside'
  · exact h j

theorem Locked.step (h : s.Locked) (hs : s.step factory minimum m = some s') : s'.Locked := by
  intro j
  cases m with
  | commit stakes =>
    cases hs
    rw [any_inside_append_due]
    exact h j
  | acquire i =>
    obtain ⟨hi, hfree, rfl⟩ := step_acquire hs
    simp only [advance, any_inside_set hi, Option.some.injEq]
    split
    · exact iff_of_true ‹_› rfl
    · refine iff_of_false ‹_› ?_
      rw [← h j, hfree]
      simp
  | read i =>
    obtain ⟨hi, rfl⟩ := step_read hs
    exact h.inside hi rfl rfl j
  | install i =>
    obtain ⟨stakes, hi, rfl⟩ := step_install hs
    exact h.inside hi rfl rfl j
  | release i =>
    obtain ⟨hi, rfl⟩ := step_release hs
    simp only [advance, any_inside_set hi]
    split
    · exact iff_of_false (by simp) (by simp [Phase.isInside])
    · refine iff_of_false (by simp) ?_
      rw [← h j, h.holder_eq hi rfl]
      simpa using ‹_›

/-! ### What is installed -/

def Listed (stakes : Stakes) : Prop := ∃ db program, stakes = (Stake.stakes db program).value

/-- The set is the one that the stakes ask for. -/
def Fits (factory : Option (ClientFactory κ)) (minimum : Amount) (s : Following κ) : Prop :=
  (refresh factory minimum {} s.stakes).value = .ok s.members

theorem successor_eq (minimum : Amount) (hf : ∀ make ∈ factory, Steady make)
    (hs : Listed stakes) (ho : Made factory old) : (refresh factory minimum {} stakes).value =
      .ok (successor factory minimum old stakes) := by
  obtain ⟨db, program, rfl⟩ := hs
  obtain ⟨set, hset⟩ := exists_refresh minimum old hf fun _ => Stake.isExternal_of_mem_stakes
  rw [← ho.refresh_eq, successor, hset]
  rfl

theorem not_mem_of_set {refreshes : List Phase} {phase phase' other : Phase}
    (h : refreshes[i]? = some phase) (hne : other ≠ phase)
    (hnot : other ∉ refreshes.set i phase') : other ∉ refreshes := by
  obtain ⟨others, hall, hset⟩ := exists_others h
  intro ho
  rcases List.mem_cons.1 (hall.mem_iff.1 ho) with heq | ho
  · exact hne heq
  · exact hnot ((hset phase').mem_iff.2 (List.mem_cons_of_mem _ ho))

theorem mem_of_mem_set {refreshes : List Phase} {phase' other : Phase}
    (h : other ∈ refreshes.set i phase') (hne : other ≠ phase') : other ∈ refreshes :=
  (List.mem_or_eq_of_mem_set h).resolve_right hne

/-- Unless a refresh is still due, what was read are the current stakes, and the set fits them or
somebody is about to install one. -/
structure Tracks (factory : Option (ClientFactory κ)) (minimum : Amount) (s : Following κ) :
    Prop where
  locked : s.Locked
  made : Made factory s.members
  listed : Listed s.stakes
  readListed : ∀ stakes, .read stakes ∈ s.refreshes → Listed stakes
  fresh : .due ∉ s.refreshes → ∀ stakes, .read stakes ∈ s.refreshes → stakes = s.stakes
  current : .due ∉ s.refreshes → .locked ∉ s.refreshes →
    (∀ stakes, .read stakes ∉ s.refreshes) → Fits factory minimum s

namespace Tracks

theorem start (factory : Option (ClientFactory κ)) (minimum : Amount) (hs : Listed stakes) :
    Tracks factory minimum { stakes } where
  locked i := by
    cases i <;> simp [Phase.isInside]
  made := made_empty factory
  listed := hs
  readListed := by simp
  fresh := by simp
  current := by simp

theorem step (hf : ∀ make ∈ factory, Steady make) (h : Tracks factory minimum s)
    (hm : ∀ stakes, m = .commit stakes → Listed stakes)
    (hs : s.step factory minimum m = some s') : Tracks factory minimum s' := by
  have hlocked := h.locked.step hs
  cases m with
  | commit stakes =>
    cases hs
    refine ⟨hlocked, h.made, hm stakes rfl, ?_, ?_, ?_⟩
    · simpa using h.readListed
    · simp
    · simp
  | acquire i =>
    obtain ⟨hi, hfree, rfl⟩ := step_acquire hs
    obtain ⟨hlt, -⟩ := List.getElem?_eq_some_iff.1 hi
    have hread : ∀ stakes, .read stakes ∉ s.refreshes.set i .locked := by
      intro stakes hx
      obtain ⟨j, hj⟩ := List.mem_iff_getElem?.1 (mem_of_mem_set hx (by simp))
      exact absurd (hfree.symm.trans (h.locked.holder_eq hj rfl)) (by simp)
    refine ⟨hlocked, h.made, h.listed, ?_, ?_, ?_⟩
    · exact fun stakes hx => absurd hx (hread stakes)
    · exact fun _ stakes hx => absurd hx (hread stakes)
    · exact fun _ hnone => absurd (List.mem_set hlt _) hnone
  | read i =>
    obtain ⟨hi, rfl⟩ := step_read hs
    obtain ⟨hlt, -⟩ := List.getElem?_eq_some_iff.1 hi
    refine ⟨hlocked, h.made, h.listed, ?_, ?_, ?_⟩
    · intro stakes hx
      rcases List.mem_or_eq_of_mem_set hx with hx | heq
      · exact h.readListed stakes hx
      · exact Phase.read.inj heq ▸ h.listed
    · intro hdue stakes hx
      rcases List.mem_or_eq_of_mem_set hx with hx | heq
      · exact h.fresh (not_mem_of_set hi (by simp) hdue) stakes hx
      · exact Phase.read.inj heq
    · exact fun _ _ hnone => absurd (List.mem_set hlt _) (hnone s.stakes)
  | install i =>
    obtain ⟨stakes, hi, rfl⟩ := step_install hs
    have hmem : .read stakes ∈ s.refreshes := List.mem_of_getElem? hi
    have hnew := successor_eq minimum hf (h.readListed stakes hmem) h.made
    refine ⟨hlocked, made_of_refresh hnew, h.listed, ?_, ?_, ?_⟩
    · exact fun _ hx => h.readListed _ (mem_of_mem_set hx (by simp))
    · intro hdue _ hx
      exact h.fresh (not_mem_of_set hi (by simp) hdue) _ (mem_of_mem_set hx (by simp))
    · intro hdue _ _
      obtain rfl := h.fresh (not_mem_of_set hi (by simp) hdue) stakes hmem
      exact hnew
  | release i =>
    obtain ⟨hi, rfl⟩ := step_release hs
    refine ⟨hlocked, h.made, h.listed, ?_, ?_, ?_⟩
    · exact fun _ hx => h.readListed _ (mem_of_mem_set hx (by simp))
    · intro hdue _ hx
      exact h.fresh (not_mem_of_set hi (by simp) hdue) _ (mem_of_mem_set hx (by simp))
    · intro hdue hlock hread
      exact h.current (not_mem_of_set hi (by simp) hdue) (not_mem_of_set hi (by simp) hlock)
        fun stakes => not_mem_of_set hi (by simp) (hread stakes)

theorem of_run (hf : ∀ make ∈ factory, Steady make) (hs : Listed stakes) {ms : List Move}
    (hms : ∀ later, .commit later ∈ ms → Listed later)
    (h : Moves.run (Following.step factory minimum) { stakes } ms = some s) :
    Tracks factory minimum s := by
  refine Moves.run_keeps (P := fun ms s =>
    (∀ later, .commit later ∈ ms → Listed later) → Tracks factory minimum s)
    (fun _ => start factory minimum hs) ?_ h hms
  intro ms t m u ht hm hms
  refine (ht fun later hl => hms later (List.mem_append_left _ hl)).step hf ?_ hm
  rintro later rfl
  exact hms later (List.mem_append_right _ (List.mem_singleton_self _))

theorem fits_of_quiet (h : Tracks factory minimum s) (hq : s.isQuiet = true) :
    Fits factory minimum s := by
  have hover : ∀ phase ∈ s.refreshes, phase = .over := by simpa [isQuiet] using hq
  exact h.current (fun hx => by simpa using hover _ hx) (fun hx => by simpa using hover _ hx)
    fun _ hx => by simpa using hover _ hx

end Tracks

/-! ### Quiet -/

def remaining (s : Following κ) : Nat := (s.refreshes.map Phase.left).sum

theorem remaining_advance {phase : Phase} (h : s.refreshes[i]? = some phase) (phase' : Phase)
    (hless : phase'.left < phase.left) :
    ((s.refreshes.set i phase').map Phase.left).sum < s.remaining := by
  have hsum := sum_map_set h phase' Phase.left
  rw [remaining]
  omega

/-- A move of the refreshes under way. -/
def Advances (factory : Option (ClientFactory κ)) (minimum : Amount) (s s' : Following κ) : Prop :=
  ∃ m, s.step factory minimum m = some s' ∧ (∀ stakes, m ≠ .commit stakes) ∧
    s'.stakes = s.stakes ∧ s'.remaining < s.remaining

theorem advances_inside {phase : Phase} (hi : s.refreshes[i]? = some phase)
    (hinside : phase.isInside = true) : ∃ s', Advances factory minimum s s' := by
  rcases phase with _ | _ | stakes | _ | _
  · cases hinside
  · exact ⟨s.advance i (.read s.stakes), .read i, by simp only [Following.step, hi], by simp, rfl,
      remaining_advance hi _ (Nat.lt_succ_self 2)⟩
  · exact ⟨{ s.advance i .installed with members := successor factory minimum s.members stakes },
      .install i, by simp only [Following.step, hi], by simp, rfl,
      remaining_advance hi _ (Nat.lt_succ_self 1)⟩
  · exact ⟨{ s.advance i .over with holder := none }, .release i,
      by simp only [Following.step, hi], by simp, rfl, remaining_advance hi _ (Nat.lt_succ_self 0)⟩
  · cases hinside

theorem Locked.exists_advances (h : s.Locked) (hq : s.isQuiet = false) :
    ∃ s', Advances factory minimum s s' := by
  cases hholder : s.holder with
  | some j =>
    have hany := (h j).1 hholder
    cases hj : s.refreshes[j]? with
    | none => simp [hj] at hany
    | some phase => exact advances_inside hj (by rwa [hj] at hany)
  | none =>
    obtain ⟨phase, hmem, hover⟩ : ∃ phase ∈ s.refreshes, phase ≠ .over := by
      simpa [isQuiet] using hq
    obtain ⟨i, hi⟩ := List.mem_iff_getElem?.1 hmem
    by_cases hin : phase.isInside = true
    · exact advances_inside hi hin
    · obtain rfl : phase = .due := by
        rcases phase with _ | _ | _ | _ | _
        · rfl
        · exact absurd rfl hin
        · exact absurd rfl hin
        · exact absurd rfl hin
        · exact absurd rfl hover
      exact ⟨{ s.advance i .locked with holder := some i }, .acquire i,
        by simp only [Following.step, hi, hholder], by simp, rfl,
        remaining_advance hi _ (Nat.lt_succ_self 3)⟩

/-- The refreshes under way can come to their end without a change of the ledger. -/
theorem Tracks.exists_quiet (hf : ∀ make ∈ factory, Steady make) (h : Tracks factory minimum s) :
    ∃ ms s', Moves.run (Following.step factory minimum) s ms = some s' ∧
      (∀ stakes, .commit stakes ∉ ms) ∧ s'.stakes = s.stakes ∧ s'.isQuiet = true ∧
      Tracks factory minimum s' := by
  induction hn : s.remaining using Nat.strongRecOn generalizing s with
  | ind n ih =>
    cases hq : s.isQuiet with
    | true => exact ⟨[], s, rfl, by simp, rfl, hq, h⟩
    | false =>
      obtain ⟨next, m, hm, hno, hstakes, hless⟩ := h.locked.exists_advances hq
      have hnext := h.step hf (fun stakes heq => absurd heq (hno stakes)) hm
      obtain ⟨ms, s', hrun, hnone, hsame, hquiet, h'⟩ := ih next.remaining (hn ▸ hless) hnext rfl
      refine ⟨m :: ms, s', (Moves.run_cons hm ms).trans hrun, ?_, hsame.trans hstakes, hquiet, h'⟩
      intro stakes hmem
      rcases List.mem_cons.1 hmem with heq | hmem
      · exact hno stakes heq.symm
      · exact hnone stakes hmem

/-- However the changes of a ledger and the steps of the refreshes interleave, the members are the
ones that the current stakes ask for whenever no operation is in progress, and those in progress can
always come to their end. -/
theorem fits_when_quiet (hf : ∀ make ∈ factory, Steady make) (hs : Listed stakes)
    {ms : List Move} (hms : ∀ later, .commit later ∈ ms → Listed later)
    (h : Moves.run (Following.step factory minimum) { stakes } ms = some s) :
    (s.isQuiet = true → (refresh factory minimum {} s.stakes).value = .ok s.members ∧
      Mirrors minimum s.stakes s.members) ∧
    ∃ rest s', Moves.run (Following.step factory minimum) s rest = some s' ∧
      (∀ later, .commit later ∉ rest) ∧ s'.stakes = s.stakes ∧ s'.isQuiet = true ∧
      (refresh factory minimum {} s.stakes).value = .ok s'.members := by
  have ht := Tracks.of_run hf hs hms h
  constructor
  · intro hq
    have hfits := ht.fits_of_quiet hq
    exact ⟨hfits, mirrors_of_refresh hfits⟩
  · obtain ⟨rest, s', hrun, hnone, hsame, hquiet, ht'⟩ := ht.exists_quiet hf
    exact ⟨rest, s', hrun, hnone, hsame, hquiet, hsame ▸ ht'.fits_of_quiet hquiet⟩

def stakesAfter (n : Nat) : Stakes :=
  let l : Stake.Ledger Unit :=
    Stake.Ledger.run (fun _ _ => .ok none) {} (Stake.Ledger.twoStakes.take n)
  (Stake.stakes l.db l.program).value

theorem listed_stakesAfter (n : Nat) : Listed (stakesAfter n) := ⟨_, _, rfl⟩

def overlapping (a b : Stakes) : List Move :=
  [.acquire 0, .read 0, .commit a, .install 0, .commit b, .release 0, .acquire 2, .read 2,
    .install 2, .release 2, .acquire 1, .read 1, .install 1, .release 1]

theorem run_overlapping (factory : Option (ClientFactory κ)) (minimum : Amount)
    (first a b : Stakes) : ∃ s, Moves.run (Following.step factory minimum) { stakes := first }
      (overlapping a b) = some s ∧ s.isQuiet = true ∧ s.stakes = b := by
  simp [overlapping, Moves.run, Following.step, advance, isQuiet]

/-- The members after that are those of both changes. -/
theorem fits_overlapping :
    let factory : Option (ClientFactory Unit) := some fun _ => .ok (some ())
    ∃ s, Moves.run (Following.step factory 15000000000) { stakes := stakesAfter 1 }
        (overlapping (stakesAfter 2) (stakesAfter 3)) = some s ∧
      s.isQuiet = true ∧ Mirrors 15000000000 (stakesAfter 3) s.members ∧
      (shown s.members).map (fun v => (v.1, v.2.2)) = [(Stake.Ledger.staker, 22000000000)] := by
  intro factory
  have hf : ∀ make ∈ factory, Steady make := by
    intro make hmake
    obtain rfl := Option.some.inj hmake
    exact fun _ => ⟨_, rfl⟩
  obtain ⟨s, hrun, hquiet, hstakes⟩ := run_overlapping factory 15000000000 (stakesAfter 1)
    (stakesAfter 2) (stakesAfter 3)
  have hms : ∀ later, .commit later ∈ overlapping (stakesAfter 2) (stakesAfter 3) →
      Listed later := by
    intro later hmem
    simp only [overlapping, List.mem_cons, Move.commit.injEq, reduceCtorEq, false_or,
      List.not_mem_nil, or_false] at hmem
    rcases hmem with rfl | rfl <;> exact listed_stakesAfter _
  obtain ⟨hfits, hmirrors⟩ := (fits_when_quiet hf (listed_stakesAfter 1) hms hrun).1 hquiet
  have hshown : (refresh factory 15000000000 {} (stakesAfter 3)).value.toOption.map (fun set =>
      (shown set).map fun v => (v.1, v.2.2)) = some [(Stake.Ledger.staker, 22000000000)] := by
    decide +kernel
  rw [hstakes] at hfits hmirrors
  rw [hfits] at hshown
  exact ⟨s, hrun, hquiet, hmirrors, Option.some.inj hshown⟩

end Following

end StakeQuorum.ValidatorSet
