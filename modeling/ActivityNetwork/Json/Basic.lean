import ActivityNetwork.Identity

/-!
# JSON values

The values in which networks, resources and policies are kept, and what is needed to read
them.  Reading is strict where it matters: a whole number is a run of digits of at most 64
bits, a record has all its members, and a variant has one name and one payload.  Members that
nobody asks for are passed over.
-/

namespace ActivityNetwork

/-- A JSON value. -/
inductive Json where
  | null
  | bool (value : Bool)
  /-- A number that is written as a run of digits. -/
  | nat (value : Nat)
  /-- Any other number, as it is written. -/
  | number (literal : String)
  | text (value : String)
  | list (items : List Json)
  | object (members : List (String × Json))
  deriving Inhabited

namespace Json

/-! ## Single values -/

/-- A whole number of at most 64 bits. -/
def word? : Json → Option Nat
  | nat n => if n ≤ maxWord then some n else none
  | _ => none

def bool? : Json → Option Bool
  | bool b => some b
  | _ => none

def text? : Json → Option String
  | text s => some s
  | _ => none

def list? : Json → Option (List Json)
  | list items => some items
  | _ => none

/-! ## Records and variants -/

/-- The member of an object with the given name. -/
def member? (name : String) : Json → Option Json
  | object members => (members.find? (·.1 = name)).map Prod.snd
  | _ => none

/-- The members of a record.  A record is an object that has them all, or a list of exactly
their values. -/
def record? (names : List String) : Json → Option (List Json)
  | list items => if items.length = names.length then some items else none
  | value => names.mapM fun name => value.member? name

/-- The settings of a record that may leave some of them out: an object with some of them, or
a list of the first few. -/
def settings? (names : List String) : Json → Option (List (Option Json))
  | list items =>
      if items.length ≤ names.length then
        some (items.map some ++ List.replicate (names.length - items.length) none)
      else none
  | object members => some (names.map fun name => (object members).member? name)
  | _ => none

/-- The name and the payload of a variant.  A bare name stands for a variant without
payload. -/
def variant? : Json → Option (String × Json)
  | text name => some (name, null)
  | object [(name, payload)] => some (name, payload)
  | _ => none

/-! ## Reading what was written -/

theorem word?_nat {n : Nat} (h : n ≤ maxWord) : (nat n).word? = some n :=
  if_pos h

theorem list?_eq_some_iff {j : Json} {items : List Json} :
    j.list? = some items ↔ j = list items := by
  cases j <;> simp [list?]

theorem le_maxWord_of_word? {j : Json} {n : Nat} (h : j.word? = some n) : n ≤ maxWord := by
  cases j with
  | nat m =>
      rw [word?] at h
      split at h
      · cases h
        assumption
      · cases h
  | _ => cases h

end Json

end ActivityNetwork
