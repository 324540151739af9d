/-!
# JSON values and their readers

Values as a parser hands them on, and readers that take them apart the way derived ones do:
a record is read from an object, whose other members are ignored, or from the list of its
fields in their order; a member that may be missing may also be null.
-/

namespace Json

inductive Value where
  | null
  | bool (b : Bool)
  | num (n : Int)
  /-- A number that is not a 64-bit integer. -/
  | float
  | str (s : List Char)
  | arr (items : List Value)
  | obj (members : List (String × Value))

abbrev Reader (α : Type) := Value → Option α

variable {α : Type}

/-! ## Readers -/

/-- An integer from 0 up to the bound. -/
def unsigned (bound : Nat) : Reader Nat
  | .num n => if 0 ≤ n ∧ n < bound then some n.toNat else none
  | _ => none

/-- An integer from minus the bound up to the bound. -/
def signed (bound : Nat) : Reader Int
  | .num n => if -bound ≤ n ∧ n < bound then some n else none
  | _ => none

def string : Reader (List Char)
  | .str s => some s
  | _ => none

def list (read : Reader α) : Reader (List α)
  | .arr items => items.mapM read
  | _ => none

def option (read : Reader α) : Reader (Option α)
  | .null => some none
  | v => (read v).map some

/-- A member that has to be there. -/
def required (members : List (String × Value)) (name : String) (read : Reader α) : Option α :=
  (members.lookup name).bind read

/-- A member that may be missing. -/
def optional (members : List (String × Value)) (name : String) (read : Reader α) :
    Option (Option α) :=
  match members.lookup name with
  | some v => option read v
  | none => some none

/-! ## What is written is read -/

section Laws

variable {bound : Nat} {members : List (String × Value)} {name : String} {read : Reader α}
  {v : Value} {a : α}

theorem unsigned_num {n : Nat} (h : n < bound) : unsigned bound (.num n) = some n := by
  rw [unsigned, if_pos ⟨Int.natCast_nonneg n, Int.ofNat_lt.mpr h⟩, Int.toNat_natCast]

theorem signed_num {n : Int} (hle : -bound ≤ n) (hlt : n < bound) :
    signed bound (.num n) = some n := by
  rw [signed, if_pos ⟨hle, hlt⟩]

theorem list_arr {write : α → Value} {items : List α} (h : ∀ a ∈ items, read (write a) = some a) :
    list read (.arr (items.map write)) = some items := by
  rw [list]
  induction items with
  | nil => rfl
  | cons item items ih =>
      have hrest := ih fun a ha => h a (List.mem_cons_of_mem _ ha)
      rw [List.map_cons, List.mapM_cons, h item List.mem_cons_self, hrest]
      rfl

theorem option_of_ne_null (hnull : v ≠ .null) (hread : read v = some a) :
    option read v = some (some a) := by
  unfold option
  split
  · exact absurd rfl hnull
  · rw [hread]
    rfl

theorem required_of_lookup (hlookup : members.lookup name = some v) (hread : read v = some a) :
    required members name read = some a := by
  rw [required, hlookup]
  exact hread

/-- Null and missing are the same. -/
theorem optional_eq_option : optional members name read =
    option read ((members.lookup name).getD .null) := by
  unfold optional
  cases members.lookup name <;> rfl

theorem optional_of_lookup (hlookup : members.lookup name = some v) (hnull : v ≠ .null)
    (hread : read v = some a) : optional members name read = some (some a) := by
  rw [optional, hlookup]
  exact option_of_ne_null hnull hread

theorem optional_of_null (h : (members.lookup name).getD .null = .null) :
    optional members name read = some none := by
  rw [optional_eq_option, h]
  rfl

/-! ## What is read was written -/

theorem null_of_option (h : option read v = some none) : v = .null := by
  unfold option at h
  split at h
  · rfl
  · obtain ⟨a, hread, heq⟩ := Option.map_eq_some_iff.mp h
    cases heq

theorem read_of_option (h : option read v = some (some a)) : read v = some a := by
  unfold option at h
  split at h
  · cases Option.some.inj h
  · obtain ⟨a', hread, heq⟩ := Option.map_eq_some_iff.mp h
    rw [hread, Option.some.inj heq]

theorem num_of_unsigned {n : Nat} (h : unsigned bound v = some n) : n < bound ∧ v = .num n := by
  cases v with
  | num k =>
      rw [unsigned] at h
      split at h
      · rename_i hin
        obtain rfl := Option.some.inj h
        exact ⟨by omega, by rw [Int.toNat_of_nonneg hin.1]⟩
      · contradiction
  | _ => contradiction

theorem str_of_string {s : List Char} (h : string v = some s) : v = .str s := by
  cases v with
  | str s' => rw [Option.some.inj h]
  | _ => contradiction

end Laws

end Json
