import Mathlib.Data.List.Forall2
import Mathlib.Data.Nat.Digits.Defs
import Mathlib.Tactic.Ring
import RouteBook.Text.Numeral

/-! # Digits and the numbers they denote

A digit is looked up in a table, and digits denote the sum of their values times powers of the base.
Reading from the front, digit by digit, finds that number whatever its size, and a machine word is
one that is small enough: a text is read as a word exactly when it denotes one. -/

namespace RouteBook.Text.Numeral

/-- The character is the digit of that value; a letter is one in either case. -/
def IsDigit (c : Char) (d : Nat) : Prop :=
  "0123456789abcdef".toList[d]? = some c ∨ "0123456789ABCDEF".toList[d]? = some c

instance decidableIsDigit (c : Char) (d : Nat) : Decidable (IsDigit c d) :=
  inferInstanceAs
    (Decidable ("0123456789abcdef".toList[d]? = some c ∨ "0123456789ABCDEF".toList[d]? = some c))

theorem IsDigit.lt {c : Char} {d : Nat} (h : IsDigit c d) : d < 16 := by
  rcases h with h | h
  · exact (List.getElem?_eq_some_iff.mp h).1
  · exact (List.getElem?_eq_some_iff.mp h).1

/-- What holds of all characters of the table holds of a digit. -/
theorem IsDigit.of_all {p : Char → Bool} (hp : "0123456789abcdefABCDEF".toList.all p = true)
    {c : Char} {d : Nat} (h : IsDigit c d) : p c = true := by
  have hlower : "0123456789abcdef".toList ⊆ "0123456789abcdefABCDEF".toList := by decide +kernel
  have hupper : "0123456789ABCDEF".toList ⊆ "0123456789abcdefABCDEF".toList := by decide +kernel
  refine List.all_eq_true.mp hp c ?_
  rcases h with h | h
  · exact hlower (List.mem_of_getElem? h)
  · exact hupper (List.mem_of_getElem? h)

theorem toNat_lt_of_digit? {base d : Nat} {c : Char} (h : digit? base c = some d) :
    c.toNat < 128 := by
  have hle {a b : Char} (h : a ≤ b) : a.toNat ≤ b.toNat := h
  have hv := (Option.filter_eq_some_iff.mp h).1
  split at hv
  · next hc => exact Nat.lt_of_le_of_lt (hle hc.2) (by decide)
  · split at hv
    · next hc => exact Nat.lt_of_le_of_lt (hle hc.2) (by decide)
    · split at hv
      · next hc => exact Nat.lt_of_le_of_lt (hle hc.2) (by decide)
      · cases hv

theorem digit?_sixteen {c : Char} {d : Nat} : digit? 16 c = some d ↔ IsDigit c d := by
  have htable : ∀ n < 128, ∀ d < 16, digit? 16 (Char.ofNat n) = some d ↔
    IsDigit (Char.ofNat n) d := by decide +kernel
  have hc (hn : c.toNat < 128) (hd : d < 16) : digit? 16 c = some d ↔ IsDigit c d := by
    simpa using htable c.toNat hn d hd
  constructor
  · intro h
    exact (hc (toNat_lt_of_digit? h) (digit?_lt h)).mp h
  · intro h
    have hn := h.of_all (p := fun c => c.toNat < 128) (by decide +kernel)
    exact (hc (of_decide_eq_true hn) h.lt).mpr h

/-- Up to base sixteen the table has all digits. -/
theorem digit?_eq_some_iff {base d : Nat} (hb : base ≤ 16) {c : Char} :
    digit? base c = some d ↔ IsDigit c d ∧ d < base := by
  have hfilter : digit? base c = (digit? 16 c).filter (· < base) := by
    rw [digit?, digit?, Option.filter_filter]
    congr 1
    funext n
    rw [← Bool.decide_and]
    exact decide_eq_decide.mpr (by omega)
  rw [hfilter, Option.filter_eq_some_iff, digit?_sixteen, decide_eq_true_iff]

/-! ## Numerals -/

/-- The text is one or more digits of the base, and the number is what they denote: the
last digit counts ones. -/
def Denotes (base : Nat) (digits : Text) (n : Nat) : Prop :=
  digits ≠ [] ∧ ∃ values, List.Forall₂ (fun c d => IsDigit c d ∧ d < base) digits values ∧
    n = Nat.ofDigits base values.reverse

variable {base n : Nat} {t : Text}

/-- Each digit read shifts what was read before it by one place. -/
theorem extend?_eq_some_iff (hb : base ≤ 16) {acc : Nat} :
    extend? base acc t = some n ↔
      ∃ values, List.Forall₂ (fun c d => IsDigit c d ∧ d < base) t values ∧
      n = acc * base ^ t.length + Nat.ofDigits base values.reverse := by
  induction t generalizing acc with
  | nil => simp [extend?, eq_comm]
  | cons c t ih =>
    have hshift (d : Nat) {values : List Nat} (hv : t.length = values.length) :
        (acc * base + d) * base ^ t.length + Nat.ofDigits base values.reverse =
          acc * base ^ (c :: t).length + Nat.ofDigits base (d :: values).reverse := by
      rw [List.reverse_cons, Nat.ofDigits_append, Nat.ofDigits_singleton, List.length_reverse, ← hv,
        List.length_cons]
      ring
    simp only [extend?, Option.bind_eq_some_iff, ih, digit?_eq_some_iff hb,
      List.forall₂_cons_left_iff]
    constructor
    · rintro ⟨d, hd, values, hvalues, rfl⟩
      exact ⟨d :: values, ⟨d, values, hd, hvalues, rfl⟩, hshift d hvalues.length_eq⟩
    · rintro ⟨_, ⟨d, values, hd, hvalues, rfl⟩, rfl⟩
      exact ⟨d, hd, values, hvalues, (hshift d hvalues.length_eq).symm⟩

theorem ofDigits?_eq_some_iff (hb : base ≤ 16) : ofDigits? base t = some n ↔ Denotes base t n := by
  cases t with
  | nil => simp [ofDigits?, Denotes]
  | cons c t =>
    rw [ofDigits?, extend?_eq_some_iff hb, Nat.zero_mul]
    · simp [Denotes]
    · simp

theorem Denotes.unique (hb : base ≤ 16) {m : Nat} (hn : Denotes base t n) (hm : Denotes base t m) :
    n = m := by
  rw [← ofDigits?_eq_some_iff hb] at hn hm
  exact Option.some.inj (hn.symm.trans hm)

theorem Denotes.isDigit (h : Denotes base t n) {c : Char} (hc : c ∈ t) :
    ∃ d, IsDigit c d ∧ d < base := by
  obtain ⟨_, values, hvalues, _⟩ := h
  obtain ⟨i, hi, rfl⟩ := List.getElem_of_mem hc
  exact ⟨_, hvalues.get hi (hvalues.length_eq ▸ hi)⟩

/-- Digits with at most a plus sign before them. -/
inductive Signed (base : Nat) : Text → Nat → Prop where
  | plain {t : Text} {n : Nat} : Denotes base t n → Signed base t n
  | plus {t : Text} {n : Nat} : Denotes base t n → Signed base ('+' :: t) n

theorem signed_plus_iff : Signed base ('+' :: t) n ↔ Denotes base t n := by
  constructor
  · intro h
    cases h with
    | plain h =>
      obtain ⟨d, hd, _⟩ := h.isDigit List.mem_cons_self
      exact absurd (hd.of_all (p := (· != '+')) (by decide +kernel)) (by decide)
    | plus h => exact h
  · exact .plus

theorem signed_iff_of_ne (ht : ∀ rest, t ≠ '+' :: rest) : Signed base t n ↔ Denotes base t n := by
  constructor
  · intro h
    cases h with
    | plain h => exact h
    | plus => exact absurd rfl (ht _)
  · exact .plain

/-- A word is read exactly where one is written. -/
theorem word?_eq_some_iff (hb : base ≤ 16) :
    word? base t = some n ↔ Signed base t n ∧ n < wordSize := by
  unfold word?
  split
  · rw [Option.filter_eq_some_iff, decide_eq_true_iff, ofDigits?_eq_some_iff hb, signed_plus_iff]
  · next hne =>
      rw [Option.filter_eq_some_iff, decide_eq_true_iff, ofDigits?_eq_some_iff hb,
        signed_iff_of_ne hne]

theorem Signed.unique (hb : base ≤ 16) {m : Nat} (hn : Signed base t n) (hm : Signed base t m) :
    n = m := by
  cases hn with
  | plus hn => exact hn.unique hb (signed_plus_iff.mp hm)
  | plain hn =>
    cases hm with
    | plain hm => exact hn.unique hb hm
    | plus hm => exact (signed_plus_iff.mp (.plain hn)).unique hb hm

/-- A signed numeral is made of digits and a plus sign. -/
theorem Signed.isDigit (h : Signed base t n) {c : Char} (hc : c ∈ t) :
    c = '+' ∨ ∃ d, IsDigit c d ∧ d < base := by
  cases h with
  | plain h => exact .inr (h.isDigit hc)
  | plus h => exact (List.mem_cons.mp hc).imp_right h.isDigit

/-! ## The numerals of a number -/

theorem Denotes.concat (h : Denotes base t n) {c : Char} {d : Nat} (hc : IsDigit c d)
    (hd : d < base) :
    Denotes base (t ++ [c]) (base * n + d) := by
  obtain ⟨_, values, hvalues, rfl⟩ := h
  refine ⟨by simp, values ++ [d], List.rel_append hvalues (.cons ⟨hc, hd⟩ .nil), ?_⟩
  rw [List.reverse_append, List.reverse_singleton, List.singleton_append, Nat.ofDigits_cons,
    Nat.add_comm]

theorem Denotes.zeros (h : Denotes base t n) (hb : 0 < base) (count : Nat) :
    Denotes base (List.replicate count '0' ++ t) n := by
  obtain ⟨hne, values, hvalues, rfl⟩ := h
  refine ⟨by simp [hne], List.replicate count 0 ++ values, List.rel_append ?_ hvalues, ?_⟩
  · induction count with
    | zero => exact .nil
    | succ count ih => exact .cons ⟨by decide, hb⟩ ih
  · rw [List.reverse_append, List.reverse_replicate, Nat.ofDigits_append_replicate_zero]

theorem IsDigit.toUpper {c : Char} {d : Nat} (h : IsDigit c d) : IsDigit c.toUpper d := by
  have hlower : ∀ d < 16, "0123456789abcdef".toList[d]?.map Char.toUpper =
      "0123456789ABCDEF".toList[d]? := by
    decide +kernel
  have hupper : ∀ d < 16, "0123456789ABCDEF".toList[d]?.map Char.toUpper =
      "0123456789ABCDEF".toList[d]? := by
    decide +kernel
  refine .inr ?_
  rcases id h with hc | hc
  · rw [← hlower d h.lt, hc, Option.map_some]
  · rw [← hupper d h.lt, hc, Option.map_some]

theorem Denotes.asciiUpper (h : Denotes base t n) : Denotes base (asciiUpper t) n := by
  obtain ⟨hne, values, hvalues, hn⟩ := h
  refine ⟨by simpa [Text.asciiUpper] using hne, values, ?_, hn⟩
  rw [Text.asciiUpper, List.forall₂_map_left_iff]
  exact hvalues.imp fun c d hcd => ⟨hcd.1.toUpper, hcd.2⟩

theorem isDigit_digitChar {d : Nat} (h : d < 16) : IsDigit d.digitChar d := by
  have htable : ∀ d < 16, IsDigit (Nat.digitChar d) d := by decide +kernel
  exact htable d h

theorem denotes_toDigits (hb : 1 < base) (hb' : base ≤ 16) (n : Nat) :
    Denotes base (Nat.toDigits base n) n := by
  induction n using Nat.strong_induction_on with
  | _ n ih =>
    by_cases hn : n < base
    · rw [Nat.toDigits_of_lt_base hn]
      refine ⟨List.cons_ne_nil _ _, [n], .cons ⟨isDigit_digitChar (by omega), hn⟩ .nil, ?_⟩
      simp
    · rw [Nat.toDigits_of_base_le hb (Nat.le_of_not_lt hn)]
      have hmod := Nat.mod_lt n (Nat.zero_lt_of_lt hb)
      have h :=
        (ih (n / base) (Nat.div_lt_self (by omega) hb)).concat (isDigit_digitChar (by omega)) hmod
      rwa [Nat.div_add_mod] at h

theorem denotes_decimal (n : Nat) : Denotes 10 (decimal n) n :=
  denotes_toDigits (by decide) (by decide) n

theorem denotes_hexadecimal (width n : Nat) : Denotes 16 (hexadecimal width n) n :=
  (denotes_toDigits (by decide) (by decide) n).zeros (by decide) _

end RouteBook.Text.Numeral
