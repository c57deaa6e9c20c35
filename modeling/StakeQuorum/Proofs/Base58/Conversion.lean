import Mathlib
import StakeQuorum.Base58

/-! # Conversion between bases

A buffer of digits stands for a number, and one step of a conversion multiplies and adds to it. In a
buffer that holds every number with so many digits, nothing is ever carried out, and its significant
digits are those of the number. A step may stop behind the digits in use: the rest stays zero.
-/

namespace StakeQuorum.Base58

variable {base factor size carry used : Nat} {d : Nat} {ds ds' : List Nat} {room : Nat → Nat}

/-- Every digit is below the base. -/
def Below (base : Nat) (ds : List Nat) : Prop := ∀ d ∈ ds, d < base

instance (base : Nat) (ds : List Nat) : Decidable (Below base ds) :=
  inferInstanceAs (Decidable (∀ d ∈ ds, d < base))

theorem below_append : Below base (ds ++ ds') ↔ Below base ds ∧ Below base ds' :=
  List.forall_mem_append

def value (base : Nat) (ds : List Nat) : Nat := Nat.ofDigits base ds.reverse

theorem value_append_singleton (base : Nat) (ds : List Nat) (d : Nat) :
    value base (ds ++ [d]) = base * value base ds + d := by
  simp only [value, List.reverse_append, List.reverse_singleton, List.singleton_append,
    Nat.ofDigits_cons]
  omega

theorem value_lt (hbase : 1 < base) (h : Below base ds) : value base ds < base ^ ds.length := by
  rw [← List.length_reverse]
  exact Nat.ofDigits_lt_base_pow_length hbase fun d hd => h d (List.mem_reverse.1 hd)

/-! ### Multiplying a buffer -/

theorem length_mulAdd (base factor : Nat) (ds : List Nat) (carry : Nat) :
    (mulAdd base factor ds carry).1.length = ds.length := by
  induction ds generalizing carry with
  | nil => rfl
  | cons d ds ih => simp [mulAdd, ih]

theorem below_mulAdd (hbase : 0 < base) (factor : Nat) (ds : List Nat) (carry : Nat) :
    Below base (mulAdd base factor ds carry).1 := by
  induction ds generalizing carry with
  | nil => simp [mulAdd, Below]
  | cons d ds ih => exact List.forall_mem_cons.2 ⟨Nat.mod_lt _ hbase, ih _⟩

/-- The buffer and what no longer fits make up the product and the carry. -/
theorem ofDigits_mulAdd (base factor : Nat) (ds : List Nat) (carry : Nat) :
    Nat.ofDigits base (mulAdd base factor ds carry).1 +
        base ^ ds.length * (mulAdd base factor ds carry).2 =
      factor * Nat.ofDigits base ds + carry := by
  induction ds generalizing carry with
  | nil => simp [mulAdd]
  | cons d ds ih =>
    have hdivmod := Nat.mod_add_div (factor * d + carry) base
    have hrest := ih ((factor * d + carry) / base)
    simp only [mulAdd, Nat.ofDigits_cons, List.length_cons, Nat.pow_succ]
    calc _ = (factor * d + carry) % base + base *
            (Nat.ofDigits base (mulAdd base factor ds ((factor * d + carry) / base)).1 +
              base ^ ds.length * (mulAdd base factor ds ((factor * d + carry) / base)).2) := by ring
      _ = (factor * d + carry) % base + base * ((factor * d + carry) / base) +
            base * (factor * Nat.ofDigits base ds) := by rw [hrest]; ring
      _ = factor * (d + base * Nat.ofDigits base ds) + carry := by rw [hdivmod]; ring

theorem mulAdd_of_lt (h : factor * Nat.ofDigits base ds + carry < base ^ ds.length) :
    Nat.ofDigits base (mulAdd base factor ds carry).1 = factor * Nat.ofDigits base ds + carry ∧
      (mulAdd base factor ds carry).2 = 0 := by
  have hsum := ofDigits_mulAdd base factor ds carry
  have hout : (mulAdd base factor ds carry).2 = 0 := by
    by_contra hne
    have := Nat.le_mul_of_pos_right (base ^ ds.length) (Nat.pos_of_ne_zero hne)
    omega
  rw [hout] at hsum
  exact ⟨hsum, hout⟩

/-! ### Converting digits -/

theorem convert_append_singleton (base factor size : Nat) (ds : List Nat) (d : Nat) :
    convert base factor size (ds ++ [d]) =
      (mulAdd base factor (convert base factor size ds) d).1 := by
  simp [convert]

theorem length_convert (base factor size : Nat) (ds : List Nat) :
    (convert base factor size ds).length = size := by
  induction ds using List.reverseRecOn with
  | nil => simp [convert]
  | append_singleton ds d ih => rw [convert_append_singleton, length_mulAdd, ih]

theorem below_convert (hbase : 0 < base) (factor size : Nat) (ds : List Nat) :
    Below base (convert base factor size ds) := by
  cases ds using List.reverseRecOn with
  | nil => simp [convert, Below, hbase]
  | append_singleton ds d =>
    rw [convert_append_singleton]
    exact below_mulAdd hbase _ _ _

theorem ofDigits_convert (hfactor : 0 < factor) (h : value factor ds < base ^ size) :
    Nat.ofDigits base (convert base factor size ds) = value factor ds := by
  induction ds using List.reverseRecOn with
  | nil => simp [convert, value]
  | append_singleton ds d ih =>
    rw [value_append_singleton] at h ⊢
    have hle := Nat.le_mul_of_pos_left (value factor ds) hfactor
    have hds := ih (by omega)
    rw [convert_append_singleton, (mulAdd_of_lt ?_).1, hds]
    rwa [hds, length_convert]

theorem carry_convert (hfactor : 0 < factor) (h : value factor (ds ++ [d]) < base ^ size) :
    (mulAdd base factor (convert base factor size ds) d).2 = 0 := by
  rw [value_append_singleton] at h
  have hle := Nat.le_mul_of_pos_left (value factor ds) hfactor
  refine (mulAdd_of_lt ?_).2
  rwa [ofDigits_convert hfactor (by omega), length_convert]

/-! ### Keeping to the digits in use -/

/-- A buffer of digits, the lowest first, after a step of a conversion: how many digits are in use,
and what the step has carried out of the buffer. -/
structure Sweep where
  digits : List Nat
  used : Nat
  carry : Nat

/-- Multiplies and adds, but stops as soon as the digits in use are passed and nothing is
carried. -/
def sweep (base factor : Nat) : Nat → List Nat → Nat → Sweep
  | _, [], carry => ⟨[], 0, carry⟩
  | used, d :: ds, carry =>
    if carry = 0 ∧ used = 0 then ⟨d :: ds, 0, 0⟩
    else
      let t := factor * d + carry
      let rest := sweep base factor (used - 1) ds (t / base)
      ⟨t % base :: rest.digits, rest.used + 1, rest.carry⟩

/-- A conversion in steps that keep to the digits in use. -/
def sweeps (base factor size : Nat) (ds : List Nat) : Sweep :=
  ds.foldl (fun s d => sweep base factor s.used s.digits d) ⟨List.replicate size 0, 0, 0⟩

def Unused (used : Nat) (ds : List Nat) : Prop := ∀ d ∈ ds.drop used, d = 0

theorem mulAdd_zeros (base factor : Nat) (h : ∀ d ∈ ds, d = 0) :
    mulAdd base factor ds 0 = (ds, 0) := by
  induction ds with
  | nil => rfl
  | cons d ds ih =>
    obtain ⟨rfl, hds⟩ := List.forall_mem_cons.1 h
    simp [mulAdd, ih hds]

theorem sweep_spec (base factor : Nat) (carry : Nat) (h : Unused used ds) :
    (sweep base factor used ds carry).digits = (mulAdd base factor ds carry).1 ∧
      (sweep base factor used ds carry).carry = (mulAdd base factor ds carry).2 ∧
      Unused (sweep base factor used ds carry).used (mulAdd base factor ds carry).1 := by
  induction ds generalizing used carry with
  | nil => simp [sweep, mulAdd, Unused]
  | cons d ds ih =>
    unfold sweep
    split
    · rename_i hstop
      obtain ⟨rfl, rfl⟩ := hstop
      rw [mulAdd_zeros base factor (by simpa [Unused] using h)]
      exact ⟨rfl, rfl, h⟩
    · have hds : Unused (used - 1) ds := by
        intro e he
        cases used with
        | zero => exact h e (List.mem_cons_of_mem _ he)
        | succ used => exact h e he
      obtain ⟨hdigits, hcarry, hunused⟩ := ih ((factor * d + carry) / base) hds
      exact ⟨congrArg _ hdigits, hcarry, hunused⟩

theorem sweeps_append_singleton (base factor size : Nat) (ds : List Nat) (d : Nat) :
    sweeps base factor size (ds ++ [d]) =
      sweep base factor (sweeps base factor size ds).used
        (sweeps base factor size ds).digits d := by
  simp [sweeps]

theorem sweeps_spec (base factor size : Nat) (ds : List Nat) :
    (sweeps base factor size ds).digits = convert base factor size ds ∧
      Unused (sweeps base factor size ds).used (convert base factor size ds) := by
  induction ds using List.reverseRecOn with
  | nil => simp [sweeps, convert, Unused]
  | append_singleton ds d ih =>
    obtain ⟨hdigits, hunused⟩ := ih
    rw [sweeps_append_singleton, convert_append_singleton, hdigits]
    exact ⟨(sweep_spec base factor d hunused).1, (sweep_spec base factor d hunused).2.2⟩

/-- Nothing is ever carried out of a buffer that the number fits. -/
theorem carry_sweeps (hfactor : 0 < factor) (h : value factor ds < base ^ size) :
    (sweeps base factor size ds).carry = 0 := by
  cases ds using List.reverseRecOn with
  | nil => rfl
  | append_singleton ds d =>
    obtain ⟨hdigits, hunused⟩ := sweeps_spec base factor size ds
    rw [sweeps_append_singleton, hdigits, (sweep_spec base factor d hunused).2.1]
    exact carry_convert hfactor h

/-! ### Significant digits -/

theorem takeWhile_zero (ds : List Nat) :
    ds.takeWhile (· == 0) = List.replicate (ds.takeWhile (· == 0)).length 0 :=
  List.eq_replicate_of_mem fun d hd => by simpa using List.mem_takeWhile_imp hd

theorem head?_dropWhile_zero (ds : List Nat) : (ds.dropWhile (· == 0)).head? ≠ some 0 := by
  intro h
  have := List.head?_dropWhile_not (· == 0) ds
  simp [h] at this

theorem digits_value (hbase : 1 < base) (h : Below base ds) (hhead : ds.head? ≠ some 0) :
    (Nat.digits base (value base ds)).reverse = ds := by
  rw [value, Nat.digits_ofDigits base hbase ds.reverse (fun d hd => h d (List.mem_reverse.1 hd)),
    List.reverse_reverse]
  intro hne hlast
  rw [List.getLast_reverse] at hlast
  exact hhead ((List.head?_eq_some_head _).trans (congrArg some hlast))

theorem value_digits (base n : Nat) : value base (Nat.digits base n).reverse = n := by
  rw [value, List.reverse_reverse, Nat.ofDigits_digits]

theorem head?_digits (base n : Nat) : (Nat.digits base n).reverse.head? ≠ some 0 := by
  rw [List.head?_reverse]
  intro h
  obtain ⟨hne, hlast⟩ := List.mem_getLast?_eq_getLast h
  exact Nat.getLast_digit_ne_zero base (Nat.digits_ne_nil_iff_ne_zero.1 hne) hlast.symm

theorem significant_eq_digits (hbase : 1 < base) (h : Below base ds) :
    significant ds = (Nat.digits base (Nat.ofDigits base ds)).reverse := by
  have hsplit : ds = (significant ds).reverse ++
      List.replicate (ds.reverse.takeWhile (· == 0)).length 0 := by
    rw [← List.reverse_inj, List.reverse_append, List.reverse_reverse, List.reverse_replicate,
      ← takeWhile_zero, significant, List.takeWhile_append_dropWhile]
  have hbelow : Below base (significant ds) := fun d hd =>
    h d (List.mem_reverse.1 ((List.dropWhile_sublist _).subset hd))
  have hvalue : Nat.ofDigits base ds = value base (significant ds) := by
    conv_lhs => rw [hsplit, Nat.ofDigits_append_replicate_zero]
    rfl
  rw [hvalue, digits_value hbase hbelow (head?_dropWhile_zero ds.reverse)]

end StakeQuorum.Base58
