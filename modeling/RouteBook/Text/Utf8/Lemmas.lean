import RouteBook.Text.Utf8

/-! Every text has one form in bytes: a byte sequence is read as a text exactly when it is
what the text is written as, and the lenient reader agrees with the strict one there. The
form is that of `String`. -/

namespace RouteBook.Text.Utf8

theorem toNat_ofNat_of_lt {n : Nat} (h : n < 256) : (UInt8.ofNat n).toNat = n := by
  rw [UInt8.toNat_ofNat']
  omega

theorem toNat_tail (n : Nat) : (tail n).toNat = 0x80 + n % 64 := toNat_ofNat_of_lt (by omega)

theorem isTail_tail (n : Nat) : isTail (tail n) = true := by
  have := toNat_tail n
  simp only [isTail, Bool.and_eq_true, decide_eq_true_eq, UInt8.le_iff_toNat_le,
    UInt8.lt_iff_toNat_lt, UInt8.reduceToNat]
  omega

theorem low_tail (n : Nat) : low (tail n) = n % 64 := by
  rw [low, toNat_tail]
  omega

theorem lead_of_lt {b : UInt8} (h : b.toNat < 0x80) : lead b = .one := by
  simp only [lead, UInt8.lt_iff_toNat_lt, UInt8.reduceToNat]
  rw [if_pos h]

theorem lead_eq_two {b : UInt8} (h : 0xC2 ≤ b.toNat) (h' : b.toNat < 0xE0) : lead b = .two := by
  simp only [lead, UInt8.lt_iff_toNat_lt, UInt8.reduceToNat]
  rw [if_neg (by omega), if_neg (by omega), if_pos h']

theorem lead_eq_three {b : UInt8} (h : 0xE0 ≤ b.toNat) (h' : b.toNat < 0xF0) : lead b = .three := by
  simp only [lead, UInt8.lt_iff_toNat_lt, UInt8.reduceToNat]
  rw [if_neg (by omega), if_neg (by omega), if_neg (by omega), if_pos h']

theorem lead_eq_four {b : UInt8} (h : 0xF0 ≤ b.toNat) (h' : b.toNat < 0xF5) : lead b = .four := by
  simp only [lead, UInt8.lt_iff_toNat_lt, UInt8.reduceToNat]
  rw [if_neg (by omega), if_neg (by omega), if_neg (by omega), if_neg (by omega), if_pos h']

theorem isSecond_iff {a b : UInt8} : isSecond a b = true ↔
    0x80 ≤ b.toNat ∧ b.toNat < 0xC0 ∧ (a.toNat = 0xE0 → 0xA0 ≤ b.toNat) ∧
      (a.toNat = 0xED → b.toNat < 0xA0) ∧ (a.toNat = 0xF0 → 0x90 ≤ b.toNat) ∧
      (a.toNat = 0xF4 → b.toNat < 0x90) := by
  simp only [isSecond, isTail, ← UInt8.toNat_inj, UInt8.le_iff_toNat_le, UInt8.lt_iff_toNat_lt,
    UInt8.reduceToNat]
  repeat' split
  all_goals
    simp only [Bool.and_eq_true, decide_eq_true_eq]
    omega

theorem isTail_iff {b : UInt8} : isTail b = true ↔ 0x80 ≤ b.toNat ∧ b.toNat < 0xC0 := by
  simp only [isTail, Bool.and_eq_true, decide_eq_true_eq, UInt8.le_iff_toNat_le,
    UInt8.lt_iff_toNat_lt, UInt8.reduceToNat]

theorem toNat_lt (c : Char) : c.toNat < 0xD800 ∨ (0xDFFF < c.toNat ∧ c.toNat < 0x110000) := c.valid

theorem scan_encodeChar (c : Char) (rest : List UInt8) :
    scan (encodeChar c ++ rest) = some c :: scan rest := by
  have hc := toNat_lt c
  unfold encodeChar
  simp only
  split
  · next h =>
    have ha := toNat_ofNat_of_lt (n := c.toNat) (by omega)
    simp only [List.cons_append, List.nil_append]
    rw [scan.eq_def]
    simp only [lead_of_lt (ha ▸ h), ha, Char.ofNat_toNat]
  · split
    · next h h' =>
      have ha := toNat_ofNat_of_lt (n := 0xC0 + c.toNat / 64) (by omega)
      have hs : isSecond (UInt8.ofNat (0xC0 + c.toNat / 64)) (tail c.toNat) = true := by
        rw [isSecond_iff, toNat_tail, ha]
        omega
      simp only [List.cons_append, List.nil_append]
      rw [scan.eq_def]
      simp only [lead_eq_two (by rw [ha]; omega) (by rw [ha]; omega), hs, if_true, low_tail, ha]
      rw [show (0xC0 + c.toNat / 64) % 32 * 64 + c.toNat % 64 = c.toNat by omega, Char.ofNat_toNat]
    · split
      · next h h' =>
        have ha := toNat_ofNat_of_lt (n := 0xE0 + c.toNat / 4096) (by omega)
        have hs : isSecond (UInt8.ofNat (0xE0 + c.toNat / 4096)) (tail (c.toNat / 64)) = true := by
          rw [isSecond_iff, toNat_tail, ha]
          omega
        simp only [List.cons_append, List.nil_append]
        rw [scan.eq_def]
        simp only [lead_eq_three (by rw [ha]; omega) (by rw [ha]; omega), hs, if_true, low_tail, ha,
          isTail_tail]
        rw [show (0xE0 + c.toNat / 4096) % 16 * 4096 + c.toNat / 64 % 64 * 64 + c.toNat % 64
          = c.toNat by omega, Char.ofNat_toNat]
      · next h =>
        have ha := toNat_ofNat_of_lt (n := 0xF0 + c.toNat / 262144) (by omega)
        have hs : isSecond (UInt8.ofNat (0xF0 + c.toNat / 262144)) (tail (c.toNat / 4096)) =
            true := by
          rw [isSecond_iff, toNat_tail, ha]
          omega
        simp only [List.cons_append, List.nil_append]
        rw [scan.eq_def]
        simp only [lead_eq_four (by rw [ha]; omega) (by rw [ha]; omega), hs, if_true, low_tail, ha,
          isTail_tail]
        rw [show (0xF0 + c.toNat / 262144) % 8 * 262144 + c.toNat / 4096 % 64 * 4096
          + c.toNat / 64 % 64 * 64 + c.toNat % 64 = c.toNat by omega, Char.ofNat_toNat]

theorem scan_encode_append (t : Text) (rest : List UInt8) :
    scan (encode t ++ rest) = t.map some ++ scan rest := by
  induction t with
  | nil => simp
  | cons c t ih => rw [encode_cons, List.append_assoc, scan_encodeChar, ih]; rfl

theorem scan_encode (t : Text) : scan (encode t) = t.map some := by
  simpa [scan] using scan_encode_append t []

theorem decode?_encode (t : Text) : decode? (encode t) = some t := by
  rw [decode?, scan_encode]
  induction t with
  | nil => rfl
  | cons c t ih => simp_all [List.mapM_cons]

theorem decodeLossy_encode (t : Text) : decodeLossy (encode t) = t := by
  rw [decodeLossy, scan_encode, List.map_map]
  simp [Function.comp_def]

theorem toNat_char {n : Nat} (h : n < 0xD800 ∨ (0xDFFF < n ∧ n < 0x110000)) :
    (Char.ofNat n).toNat = n := by
  rw [Char.ofNat, dif_pos (by simpa [Nat.isValidChar] using h)]
  rfl

theorem ofNat_toNat (b : UInt8) {n : Nat} (h : n = b.toNat) : UInt8.ofNat n = b := by
  rw [h, UInt8.ofNat_toNat]

theorem tail_of_isTail {b : UInt8} (hb : 0x80 ≤ b.toNat ∧ b.toNat < 0xC0) {n : Nat}
    (h : n % 64 = low b) : tail n = b := by
  apply ofNat_toNat
  rw [h, low]
  omega

theorem toNat_of_lead {b : UInt8} :
    match lead b with
    | .one => b.toNat < 0x80
    | .two => 0xC2 ≤ b.toNat ∧ b.toNat < 0xE0
    | .three => 0xE0 ≤ b.toNat ∧ b.toNat < 0xF0
    | .four => 0xF0 ≤ b.toNat ∧ b.toNat < 0xF5
    | .none => True := by
  by_cases h1 : b.toNat < 0x80
  · rw [lead_of_lt h1]; exact h1
  by_cases h2 : b.toNat < 0xC2
  · simp only [lead, UInt8.lt_iff_toNat_lt, UInt8.reduceToNat, if_neg h1, if_pos h2]
  by_cases h3 : b.toNat < 0xE0
  · rw [lead_eq_two (by omega) h3]; omega
  by_cases h4 : b.toNat < 0xF0
  · rw [lead_eq_three (by omega) h4]; omega
  by_cases h5 : b.toNat < 0xF5
  · rw [lead_eq_four (by omega) h5]; omega
  · simp only [lead, UInt8.lt_iff_toNat_lt, UInt8.reduceToNat, if_neg h1, if_neg h2, if_neg h3,
      if_neg h4, if_neg h5]

theorem encodeChar_one {a : UInt8} (ha : lead a = .one) :
    encodeChar (Char.ofNat a.toNat) = [a] := by
  have h := @toNat_of_lead a
  simp only [ha] at h
  rw [encodeChar, toNat_char (by omega)]
  simp only [if_pos h, UInt8.ofNat_toNat]

theorem encodeChar_two {a b : UInt8} (ha : lead a = .two) (hb : isSecond a b = true) :
    encodeChar (Char.ofNat (a.toNat % 32 * 64 + low b)) = [a, b] := by
  have h := @toNat_of_lead a
  simp only [ha] at h
  have hb := isSecond_iff.1 hb
  have hl : low b = b.toNat % 64 := rfl
  rw [encodeChar, toNat_char (by omega)]
  rw [if_neg (by omega), if_pos (by omega), ofNat_toNat a (by omega),
    tail_of_isTail ⟨hb.1, hb.2.1⟩ (by omega)]

theorem encodeChar_three {a b c : UInt8} (ha : lead a = .three) (hb : isSecond a b = true)
    (hc : isTail c = true) :
    encodeChar (Char.ofNat (a.toNat % 16 * 4096 + low b * 64 + low c)) = [a, b, c] := by
  have h := @toNat_of_lead a
  simp only [ha] at h
  have hb := isSecond_iff.1 hb
  have hc := isTail_iff.1 hc
  have hlb : low b = b.toNat % 64 := rfl
  have hlc : low c = c.toNat % 64 := rfl
  rw [encodeChar, toNat_char (by omega)]
  rw [if_neg (by omega), if_neg (by omega), if_pos (by omega), ofNat_toNat a (by omega),
    tail_of_isTail ⟨hb.1, hb.2.1⟩ (by omega), tail_of_isTail hc (by omega)]

theorem encodeChar_four {a b c d : UInt8} (ha : lead a = .four) (hb : isSecond a b = true)
    (hc : isTail c = true) (hd : isTail d = true) :
    encodeChar (Char.ofNat (a.toNat % 8 * 262144 + low b * 4096 + low c * 64 + low d))
      = [a, b, c, d] := by
  have h := @toNat_of_lead a
  simp only [ha] at h
  have hb := isSecond_iff.1 hb
  have hc := isTail_iff.1 hc
  have hd := isTail_iff.1 hd
  have hlb : low b = b.toNat % 64 := rfl
  have hlc : low c = c.toNat % 64 := rfl
  have hld : low d = d.toNat % 64 := rfl
  rw [encodeChar, toNat_char (by omega)]
  rw [if_neg (by omega), if_neg (by omega), if_neg (by omega), ofNat_toNat a (by omega),
    tail_of_isTail ⟨hb.1, hb.2.1⟩ (by omega), tail_of_isTail hc (by omega),
    tail_of_isTail hd (by omega)]

/-- One step of reading a scan back. -/
theorem eq_encode_of_cons {front rest : List UInt8} {x : Char} {t : Text}
    (hx : encodeChar x = front) (h : some x :: scan rest = t.map some)
    (ih : ∀ {t : Text}, scan rest = t.map some → rest = encode t) : front ++ rest = encode t := by
  cases t with
  | nil => simp at h
  | cons y t =>
    simp only [List.map_cons, List.cons.injEq, Option.some.injEq] at h
    rw [encode_cons, ← h.1, hx, ← ih h.2]

theorem eq_encode_of_scan {bytes : List UInt8} {t : Text} (h : scan bytes = t.map some) :
    bytes = encode t := by
  fun_induction scan bytes generalizing t with
  | case1 => cases t <;> simp_all
  | case2 a rest ha ih => exact eq_encode_of_cons (encodeChar_one ha) h ih
  | case3 a ha b rest hb ih => exact eq_encode_of_cons (encodeChar_two ha hb) h ih
  | case6 a ha b hb c rest hc ih => exact eq_encode_of_cons (encodeChar_three ha hb hc) h ih
  | case11 a ha b hb c hc d rest hd ih => exact eq_encode_of_cons (encodeChar_four ha hb hc hd) h ih
  | _ => cases t <;> simp at h

theorem mapM_id_cons {α : Type} (x : Option α) (xs : List (Option α)) :
    (x :: xs).mapM id = x.bind fun y => (xs.mapM id).map (y :: ·) := by
  rw [List.mapM_cons]
  cases x with
  | none => rfl
  | some x => cases xs.mapM id <;> simp

theorem mapM_id_eq_some_iff {α : Type} {xs : List (Option α)} {ys : List α} :
    xs.mapM id = some ys ↔ xs = ys.map some := by
  induction xs generalizing ys with
  | nil => cases ys <;> simp
  | cons x xs ih =>
    rw [mapM_id_cons, Option.bind_eq_some_iff]
    constructor
    · rintro ⟨y, rfl, h⟩
      obtain ⟨zs, hzs, rfl⟩ := Option.map_eq_some_iff.1 h
      rw [ih.1 hzs]
      rfl
    · intro h
      cases ys with
      | nil => nomatch h
      | cons y ys =>
        injection h with hx hxs
        exact ⟨y, hx, by rw [ih.2 hxs]; rfl⟩

/-- A text has one form in bytes, and nothing else is read as it. -/
theorem decode?_eq_some_iff {bytes : List UInt8} {t : Text} :
    decode? bytes = some t ↔ bytes = encode t := by
  rw [decode?, mapM_id_eq_some_iff]
  exact ⟨eq_encode_of_scan, fun h => h ▸ scan_encode t⟩

theorem encodeChar_eq_utf8EncodeChar (c : Char) : encodeChar c = String.utf8EncodeChar c := by
  have hc := toNat_lt c
  have hval : c.val.toNat = c.toNat := rfl
  rw [encodeChar, String.utf8EncodeChar, hval]
  simp only [tail]
  by_cases h1 : c.toNat < 0x80
  · rw [if_pos h1, if_pos (by omega)]
  by_cases h2 : c.toNat < 0x800
  · rw [if_neg h1, if_pos h2, if_neg (by omega), if_pos (by omega), Nat.add_comm 0xC0,
      Nat.add_comm 0x80, Nat.mod_eq_of_lt (show c.toNat / 64 < 0x20 by omega)]
  by_cases h3 : c.toNat < 0x10000
  · rw [if_neg h1, if_neg h2, if_pos h3, if_neg (by omega), if_neg (by omega), if_pos (by omega),
      Nat.add_comm 0xE0, Nat.add_comm 0x80, Nat.add_comm 0x80,
      Nat.mod_eq_of_lt (show c.toNat / 4096 < 0x10 by omega)]
  · rw [if_neg h1, if_neg h2, if_neg h3, if_neg (by omega), if_neg (by omega), if_neg (by omega),
      Nat.add_comm 0xF0, Nat.add_comm 0x80, Nat.add_comm 0x80, Nat.add_comm 0x80,
      Nat.mod_eq_of_lt (show c.toNat / 262144 < 0x08 by omega)]

/-- The bytes of texts are the byte sequences that are valid UTF-8. -/
theorem isValidUTF8_iff {bytes : List UInt8} :
    bytes.toByteArray.IsValidUTF8 ↔ ∃ t, bytes = encode t := by
  have hencode (t : Text) : t.utf8Encode = (encode t).toByteArray := by
    rw [List.utf8Encode, encode, funext encodeChar_eq_utf8EncodeChar]
  constructor
  · rintro ⟨t, ht⟩
    rw [hencode, List.toByteArray_inj] at ht
    exact ⟨t, ht⟩
  · rintro ⟨t, rfl⟩
    exact ⟨t, (hencode t).symm⟩

end RouteBook.Text.Utf8
