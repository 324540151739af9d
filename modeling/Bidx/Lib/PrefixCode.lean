import Mathlib.Data.List.Basic
import Mathlib.Tactic.Common

/-!
# Parsers that read a prefix

A parser takes a value off the front of its input and hands back the rest.  It is
`Local` when the value depends on nothing but the symbols it took.  Local parsers
are closed under sequencing and repetition, and a local parser that reads an
encoding whatever follows it accepts no part of the encoding that was cut short.
-/

namespace PrefixCode

variable {α β γ : Type*}

/-- A value off the front of the input, and the rest. -/
abbrev Parser (β α : Type*) := List β → Option (α × List β)

namespace Parser

/-- One parser after the other. -/
def andThen (p : Parser β α) (f : α → Parser β γ) : Parser β γ := fun b =>
  match p b with
  | none => none
  | some (a, rest) => f a rest

/-- A value without any input. -/
def value (a : α) : Parser β α := fun b => some (a, b)

/-- The first `width` symbols, decoded as a whole. -/
def chunk (width : Nat) (f : List β → Option α) : Parser β α := fun b =>
  if b.length < width then
    none
  else
    match f (b.take width) with
    | none => none
    | some a => some (a, b.drop width)

/-- The same parser a number of times. -/
def times (p : Parser β α) : Nat → Parser β (List α)
  | 0 => value []
  | count + 1 => p.andThen fun a => (p.times count).andThen fun as => value (a :: as)

/-- The value is read from a front part of the input, whatever follows that part. -/
def Local (p : Parser β α) : Prop :=
  ∀ b a rest, p b = some (a, rest) → ∃ used, b = used ++ rest ∧ ∀ t, p (used ++ t) = some (a, t)

variable {p : Parser β α} {f : α → Parser β γ}

theorem andThen_of_none {b : List β} (h : p b = none) : p.andThen f b = none := by
  rw [andThen, h]

theorem andThen_of_some {b mid : List β} {a : α} (h : p b = some (a, mid)) :
    p.andThen f b = f a mid := by
  rw [andThen, h]

theorem andThen_eq_some {b rest : List β} {c : γ} :
    p.andThen f b = some (c, rest) ↔ ∃ a mid, p b = some (a, mid) ∧ f a mid = some (c, rest) := by
  constructor
  · intro h
    cases hp : p b with
    | none =>
        rw [andThen_of_none hp] at h
        contradiction
    | some read =>
        obtain ⟨a, mid⟩ := read
        exact ⟨a, mid, rfl, (andThen_of_some hp).symm.trans h⟩
  · rintro ⟨a, mid, hp, hf⟩
    rw [andThen_of_some hp, hf]

theorem chunk_of_lt {width : Nat} {f : List β → Option α} {b : List β} (h : b.length < width) :
    chunk width f b = none := if_pos h

theorem chunk_of_le {width : Nat} {f : List β → Option α} {b : List β} (h : width ≤ b.length) :
    chunk width f b = (f (b.take width)).map fun a => (a, b.drop width) := by
  rw [chunk, if_neg (Nat.not_lt.mpr h)]
  cases f (b.take width) <;> rfl

theorem local_value (a : α) : (value a : Parser β α).Local := by
  intro b a' rest h
  obtain ⟨rfl, rfl⟩ := Prod.mk.inj (Option.some.inj h)
  exact ⟨[], rfl, fun t => rfl⟩

theorem Local.andThen (hp : p.Local) (hf : ∀ a, (f a).Local) : (p.andThen f).Local := by
  intro b c rest h
  obtain ⟨a, mid, hpb, hfm⟩ := andThen_eq_some.mp h
  obtain ⟨used, rfl, hused⟩ := hp b a mid hpb
  obtain ⟨used', rfl, hused'⟩ := hf a mid c rest hfm
  refine ⟨used ++ used', (List.append_assoc _ _ _).symm, fun t => ?_⟩
  rw [List.append_assoc]
  exact andThen_eq_some.mpr ⟨a, used' ++ t, hused _, hused' t⟩

theorem local_chunk (width : Nat) (f : List β → Option α) : (chunk width f).Local := by
  intro b a rest h
  rcases Nat.lt_or_ge b.length width with hlt | hle
  · rw [chunk_of_lt hlt] at h
    contradiction
  · rw [chunk_of_le hle] at h
    obtain ⟨a', hf, heq⟩ := Option.map_eq_some_iff.mp h
    obtain ⟨rfl, rfl⟩ := Prod.mk.inj heq
    have htake : (b.take width).length = width := List.length_take_of_le hle
    refine ⟨b.take width, (List.take_append_drop _ _).symm, fun t => ?_⟩
    have hlong : width ≤ (b.take width ++ t).length := by
      rw [List.length_append, htake]
      exact Nat.le_add_right _ _
    rw [chunk_of_le hlong, List.take_left' htake, List.drop_left' htake, hf, Option.map_some]

theorem Local.times (hp : p.Local) (count : Nat) : (p.times count).Local := by
  induction count with
  | zero => exact local_value []
  | succ count ih => exact hp.andThen fun a => ih.andThen fun as => local_value (a :: as)

/-- Encodings one after the other are read one after the other. -/
theorem times_encode {encode : α → List β} (h : ∀ a t, p (encode a ++ t) = some (a, t))
    (as : List α) (t : List β) :
    p.times as.length ((as.map encode).flatten ++ t) = some (as, t) := by
  induction as with
  | nil => rfl
  | cons a as ih =>
      rw [List.map_cons, List.flatten_cons, List.append_assoc, List.length_cons, times,
        andThen_of_some (h a _), andThen_of_some ih]
      rfl

/-- What an encoding is read as, it is read as only when it is complete. -/
theorem Local.strict_prefix (hp : p.Local) {code : List β} {a : α}
    (hcode : ∀ t, p (code ++ t) = some (a, t)) {b : List β} (hb : b <+: code) (hne : b ≠ code) :
    p b = none := by
  cases hread : p b with
  | none => rfl
  | some read =>
      obtain ⟨a', rest⟩ := read
      obtain ⟨missing, rfl⟩ := hb
      obtain ⟨used, rfl, hused⟩ := hp b a' rest hread
      -- Read on through the missing part, the value leaves it over.
      have hfull := hused (rest ++ missing)
      have hwhole := hcode []
      rw [List.append_nil, List.append_assoc, hfull] at hwhole
      obtain ⟨-, hrest⟩ := Prod.mk.inj (Option.some.inj hwhole)
      obtain ⟨-, rfl⟩ := List.append_eq_nil_iff.mp hrest
      rw [List.append_nil] at hne
      exact absurd rfl hne

end Parser

end PrefixCode
