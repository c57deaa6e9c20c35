import StakeQuorum.Bytes.Pieces
import StakeQuorum.Files.Path

/-! # Environments

An environment has definitions `NAME=value` and knows the user's home from the password database.
Inside a text `${NAME}` stands for the value of a variable, and at the start of a path `~` stands
for the home directory.
-/

namespace StakeQuorum

structure Environment where
  /-- The definitions in the order in which they are searched. -/
  definitions : List Bytes := []
  /-- The home directory of the user in the password database, if there is an entry. -/
  userHome : Option Bytes := none

namespace Environment

/-- The value of a variable. A name ends at its first zero byte, and the empty name is undefined. -/
def get? (env : Environment) (name : Bytes) : Option Bytes :=
  let name := Bytes.untilNul name
  if name = [] then none
  else env.definitions.findSome? fun d =>
    if (name ++ "=").isPrefixOf d then some (d.drop (name.length + 1)) else none

/-- Gives a variable a value. Both texts end at their first zero byte. A name that is then empty or
holds an equals sign is refused. -/
def define (env : Environment) (name value : Bytes) : Environment :=
  let name := Bytes.untilNul name
  if name = [] ∨ '='.toUInt8 ∈ name then env
  else
    let others := env.definitions.filter (!(name ++ "=").isPrefixOf ·)
    { env with definitions := others ++ [name ++ "=" ++ Bytes.untilNul value] }

def dollar : UInt8 := '$'.toUInt8
def openBrace : UInt8 := '\x7b'.toUInt8
def closeBrace : UInt8 := '\x7d'.toUInt8

/-- Replaces references by values, an undefined variable by nothing. After a brace that is never
closed no reference can follow, so the rest of the text stays as it is. -/
def expand (env : Environment) : Bytes → Bytes
  | [] => []
  | c :: s =>
    if c = dollar ∧ s.head? = some openBrace then
      match _h : Bytes.cut? closeBrace s.tail with
      | some (name, rest) => (env.get? name).getD [] ++ expand env rest
      | none => c :: s
    else c :: expand env s
termination_by s => s.length
decreasing_by
  · have := Bytes.length_lt_of_cut? _h
    simp only [List.length_tail, List.length_cons] at this ⊢
    omega
  · simp

def references : Bytes → List Bytes
  | [] => []
  | c :: s =>
    if c = dollar ∧ s.head? = some openBrace then
      match _h : Bytes.cut? closeBrace s.tail with
      | some (name, rest) => name :: references rest
      | none => []
    else references s
termination_by s => s.length
decreasing_by
  · have := Bytes.length_lt_of_cut? _h
    simp only [List.length_tail, List.length_cons] at this ⊢
    omega
  · simp

section

variable (env : Environment)

@[simp] theorem expand_nil : expand env [] = [] := by simp [expand]

theorem expand_cons {c : UInt8} {s : Bytes} (h : ¬(c = dollar ∧ s.head? = some openBrace)) :
    expand env (c :: s) = c :: expand env s := by
  rw [expand, if_neg h]

theorem expand_unclosed {s : Bytes} (h : Bytes.cut? closeBrace s = none) :
    expand env (dollar :: openBrace :: s) = dollar :: openBrace :: s := by
  rw [expand, if_pos ⟨rfl, rfl⟩]
  split <;> simp_all

theorem expand_eq_self {s : Bytes} (h : dollar ∉ s) : expand env s = s := by
  induction s with
  | nil => simp
  | cons c s ih =>
    simp only [List.mem_cons, not_or] at h
    rw [expand_cons env (fun hc => h.1 hc.1.symm), ih h.2]

end

def tilde : UInt8 := '~'.toUInt8

/-- The value of `HOME`, even an empty one, and only without it the home of the user. -/
def home (env : Environment) : Bytes := ((env.get? "HOME").or env.userHome).getD []

/-- Replaces `~` alone or before a slash by the home directory unless that is empty. -/
def expandHome (env : Environment) (p : Files.Path) : Files.Path :=
  match p with
  | [] => []
  | c :: rest =>
    if c = tilde ∧ (rest = [] ∨ rest.head? = some Files.slash) then
      if env.home = [] then p else env.home ++ rest
    else p

def path (env : Environment) (p : Files.Path) : Files.Path := env.expand (env.expandHome p)

end Environment

end StakeQuorum
