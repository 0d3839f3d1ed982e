import RouteBook.Proofs.Text.Digits
import RouteBook.Proofs.Text.Slices
import RouteBook.Text.Percent

/-! # The strict reading in two passes over bytes

A text can also be read byte by byte: a first pass looks whether two hexadecimal digits follow every
percent sign, a second one replaces the escapes and knows nothing of broken ones. The first pass
jumps over each escape it has seen, and no percent sign is lost in a jump, since the digits of an
escape are none. The two passes together read what the reader of this library reads, and fail where
it fails: at a broken escape, or at bytes that are not UTF-8. -/

namespace RouteBook.Text

/-- Two digits stand behind every mark. -/
def FollowedByDigits {α : Type} (mark : α) (IsHex : α → Prop) (xs : List α) : Prop :=
  ∀ front back, xs = front ++ mark :: back →
    ∃ high low rest, back = high :: low :: rest ∧ IsHex high ∧ IsHex low

namespace FollowedByDigits

variable {α : Type} {mark x : α} {IsHex : α → Prop} {xs : List α}

theorem nil : FollowedByDigits mark IsHex [] := by
  intro front back h
  cases front <;> cases h

theorem cons_iff (hx : x ≠ mark) :
    FollowedByDigits mark IsHex (x :: xs) ↔ FollowedByDigits mark IsHex xs := by
  constructor
  · intro h front back he
    exact h (x :: front) back (congrArg (x :: ·) he)
  · intro h front back he
    cases front with
    | nil => exact absurd (List.cons.inj he).1 hx
    | cons y front => exact h front back (List.cons.inj he).2

/-- A mark takes the two digits behind it with it, since a digit is no mark. -/
theorem mark_iff (hm : ¬ IsHex mark) :
    FollowedByDigits mark IsHex (mark :: xs) ↔
      ∃ high low rest, xs = high :: low :: rest ∧ IsHex high ∧ IsHex low ∧
        FollowedByDigits mark IsHex rest := by
  have hne {y : α} (hy : IsHex y) : y ≠ mark := fun he => hm (he ▸ hy)
  constructor
  · intro h
    obtain ⟨high, low, rest, rfl, hhigh, hlow⟩ := h [] xs rfl
    refine ⟨high, low, rest, rfl, hhigh, hlow, fun front back he => ?_⟩
    exact h (mark :: high :: low :: front) back (by rw [he]; rfl)
  · rintro ⟨high, low, rest, rfl, hhigh, hlow, hrest⟩ front back he
    cases front with
    | nil => exact ⟨high, low, rest, (List.cons.inj he).2.symm, hhigh, hlow⟩
    | cons y front =>
      have hrest := (cons_iff (hne hhigh)).mpr ((cons_iff (hne hlow)).mpr hrest)
      exact hrest front back (List.cons.inj he).2

end FollowedByDigits

namespace Percent

open Utf8

/-! ## Escapes of a text -/

/-- A hexadecimal digit, a letter in either case. -/
def IsHex (c : Char) : Prop := ∃ d, Numeral.IsDigit c d

/-- Two hexadecimal digits follow every percent sign. -/
def Complete (raw : Text) : Prop := FollowedByDigits '%' IsHex raw

theorem isHex_iff {c : Char} : IsHex c ↔ (Numeral.digit? 16 c).isSome = true := by
  simp only [IsHex, Option.isSome_iff_exists, Numeral.digit?_sixteen]

theorem not_isHex_percent : ¬ IsHex '%' := by
  rw [isHex_iff]
  exact nofun

theorem isSome_byte?_iff {high low : Char} :
    (byte? high low).isSome = true ↔ IsHex high ∧ IsHex low := by
  rw [isHex_iff, isHex_iff, byte?]
  cases Numeral.digit? 16 high with
  | none => simp
  | some h => cases Numeral.digit? 16 low <;> simp

/-- The strict reader stops at an escape that is not complete, and at nothing else. -/
theorem isSome_bytes?_iff (raw : Text) : (bytes? raw).isSome = true ↔ Complete raw := by
  unfold Complete
  fun_induction bytes? raw with
  | case1 => exact ⟨fun _ => .nil, fun _ => rfl⟩
  | case2 high low rest ih =>
    rw [FollowedByDigits.mark_iff not_isHex_percent]
    constructor
    · intro h
      obtain ⟨bytes, h⟩ := Option.isSome_iff_exists.mp h
      obtain ⟨b, hb, h⟩ := Option.bind_eq_some_iff.mp h
      obtain ⟨bs, hbs, _⟩ := Option.map_eq_some_iff.mp h
      obtain ⟨hhigh, hlow⟩ := isSome_byte?_iff.mp (Option.isSome_iff_exists.mpr ⟨b, hb⟩)
      exact ⟨high, low, rest, rfl, hhigh, hlow, ih.mp (Option.isSome_iff_exists.mpr ⟨bs, hbs⟩)⟩
    · rintro ⟨_, _, _, ⟨⟩, hhigh, hlow, hrest⟩
      obtain ⟨b, hb⟩ := Option.isSome_iff_exists.mp (isSome_byte?_iff.mpr ⟨hhigh, hlow⟩)
      obtain ⟨bs, hbs⟩ := Option.isSome_iff_exists.mp (ih.mpr hrest)
      rw [hb, Option.bind_some, hbs]
      rfl
  | case3 rest hshort =>
    rw [FollowedByDigits.mark_iff not_isHex_percent]
    refine ⟨fun h => absurd h Bool.false_ne_true, ?_⟩
    rintro ⟨high, low, rest, rfl, _⟩
    exact absurd rfl (hshort high low rest)
  | case4 c rest hc ih => rw [Option.isSome_map, ih, FollowedByDigits.cons_iff hc]

/-! ## Bytes -/

/-- The value of a byte that is a hexadecimal digit in ASCII. -/
def hexValue? (b : UInt8) : Option Nat :=
  if 0x30 ≤ b ∧ b ≤ 0x39 then some (b.toNat - 0x30)
  else if 0x41 ≤ b ∧ b ≤ 0x46 then some (b.toNat - 0x37)
  else if 0x61 ≤ b ∧ b ≤ 0x66 then some (b.toNat - 0x57)
  else none

/-- The bytes with each complete escape replaced by the byte that it denotes. All
other bytes are kept. -/
def replaced : List UInt8 → List UInt8
  | [] => []
  | b :: rest =>
    if b = 0x25 then
      match rest with
      | high :: low :: rest =>
        match hexValue? high, hexValue? low with
        | some h, some l => UInt8.ofNat (16 * h + l) :: replaced rest
        | _, _ => b :: replaced (high :: low :: rest)
      | rest => b :: replaced rest
    else b :: replaced rest

/-- The scan for broken escapes, from an offset on. It goes on three bytes behind the
percent sign of an escape. -/
def scanFrom (bytes : List UInt8) (offset : Nat) : Bool :=
  if h : offset < bytes.length then
    if bytes[offset] = 0x25 then
      match bytes[offset + 1]?, bytes[offset + 2]? with
      | some high, some low =>
        if (hexValue? high).isSome && (hexValue? low).isSome then scanFrom bytes (offset + 3)
        else false
      | _, _ => false
    else scanFrom bytes (offset + 1)
  else true
  termination_by bytes.length - offset

/-- The scan, and where it finds nothing broken a reader that replaces escapes. -/
def guarded (read : Text → Option Text) (raw : Text) : Option Text :=
  if scanFrom (encode raw) 0 then read raw else none

/-! ## The scan -/

/-- A hexadecimal digit in ASCII. -/
def IsHexByte (b : UInt8) : Prop := (hexValue? b).isSome = true

theorem not_isHexByte_percent : ¬ IsHexByte 0x25 := by
  rw [IsHexByte]
  decide

theorem drop_eq_cons {bytes : List UInt8} {i : Nat} {b : UInt8} (h : bytes[i]? = some b) :
    bytes.drop i = b :: bytes.drop (i + 1) := by
  obtain ⟨hi, rfl⟩ := List.getElem?_eq_some_iff.mp h
  exact List.drop_eq_getElem_cons hi

/-- The scan refuses what is left of the bytes exactly if a broken escape is in it. -/
theorem scanFrom_iff (bytes : List UInt8) (offset : Nat) :
    scanFrom bytes offset = true ↔ FollowedByDigits 0x25 IsHexByte (bytes.drop offset) := by
  have hpercent {offset : Nat} {h : offset < bytes.length} (hp : bytes[offset] = 0x25) :
      bytes.drop offset = 0x25 :: bytes.drop (offset + 1) :=
        drop_eq_cons (hp ▸ List.getElem?_eq_getElem h)
  fun_induction scanFrom bytes offset with
  | case1 offset h hp high low hlow hhigh hdigits ih =>
    rw [hpercent hp, drop_eq_cons hhigh, drop_eq_cons hlow,
      FollowedByDigits.mark_iff not_isHexByte_percent]
    refine ih.trans ?_
    rw [Bool.and_eq_true] at hdigits
    constructor
    · exact fun hrest => ⟨high, low, _, rfl, hdigits.1, hdigits.2, hrest⟩
    · rintro ⟨_, _, _, ⟨⟩, _, _, hrest⟩
      exact hrest
  | case2 offset h hp high low hlow hhigh hdigits =>
    rw [hpercent hp, drop_eq_cons hhigh, drop_eq_cons hlow,
      FollowedByDigits.mark_iff not_isHexByte_percent]
    refine ⟨nofun, ?_⟩
    rintro ⟨_, _, _, ⟨⟩, hh, hl, _⟩
    exact absurd (Bool.and_eq_true_iff.mpr ⟨hh, hl⟩) hdigits
  | case3 offset h hp hshort =>
    rw [hpercent hp, FollowedByDigits.mark_iff not_isHexByte_percent]
    refine ⟨nofun, ?_⟩
    rintro ⟨high, low, rest, hrest, _⟩
    have hget (i : Nat) : bytes[offset + 1 + i]? = (high :: low :: rest)[i]? := by
      rw [← hrest, List.getElem?_drop]
    exact (hshort high low (hget 0) (hget 1)).elim
  | case4 offset h hp ih =>
    rw [drop_eq_cons (List.getElem?_eq_getElem h), FollowedByDigits.cons_iff hp]
    exact ih
  | case5 offset h =>
    rw [List.drop_of_length_le (Nat.le_of_not_lt h)]
    exact ⟨fun _ => .nil, fun _ => rfl⟩

/-! ## Characters and their bytes -/

theorem mem_encodeChar_percent {c : Char} (h : 0x25 ∈ encodeChar c) : c = '%' := by
  by_cases hc : c.toNat < 0x80
  · rw [encodeChar, if_pos hc, List.mem_singleton] at h
    have hn := congrArg UInt8.toNat h
    rw [toNat_ofNat_of_lt (by omega)] at hn
    exact Char.toNat_inj.mp hn.symm
  · have hle := le_of_mem_encodeChar (Nat.le_of_not_lt hc) h
    exact absurd hle (by decide)

/-- The digits are the bytes of the digits. -/
theorem exists_encodeChar_hex (c : Char) :
    ∃ first more, encodeChar c = first :: more ∧ hexValue? first = Numeral.digit? 16 c ∧
      ((Numeral.digit? 16 c).isSome = true → more = []) := by
  by_cases hc : c.toNat < 0x80
  · have htable : ∀ n < 128, hexValue? (UInt8.ofNat n) = Numeral.digit? 16 (Char.ofNat n) := by
      decide +kernel
    refine ⟨UInt8.ofNat c.toNat, [], by rw [encodeChar, if_pos hc], ?_, fun _ => rfl⟩
    simpa using htable c.toNat hc
  · obtain ⟨first, more, he, _, _, hfirst⟩ := exists_encodeChar c
    have hfirst := hfirst (Nat.le_of_not_lt hc)
    have hnone : Numeral.digit? 16 c = none := by
      rw [Option.eq_none_iff_forall_ne_some]
      exact fun d hd => hc (Numeral.toNat_lt_of_digit? hd)
    refine ⟨first, more, he, ?_, fun h => ?_⟩
    · rw [hnone, hexValue?]
      simp only [UInt8.le_iff_toNat_le, UInt8.reduceToNat]
      rw [if_neg (by omega), if_neg (by omega), if_neg (by omega)]
    · rw [hnone] at h
      cases h

theorem encode_percent (t : Text) : encode ('%' :: t) = 0x25 :: encode t := rfl

theorem encode_digits {high low : Char} {h l : Nat} (hh : Numeral.digit? 16 high = some h)
    (hl : Numeral.digit? 16 low = some l) (rest : Text) :
    ∃ a z, encode (high :: low :: rest) = a :: z :: encode rest ∧ hexValue? a = some h ∧
      hexValue? z = some l := by
  obtain ⟨a, more, ha, hav, hmore⟩ := exists_encodeChar_hex high
  obtain ⟨z, more', hz, hzv, hmore'⟩ := exists_encodeChar_hex low
  rw [hh] at hav hmore
  rw [hl] at hzv hmore'
  obtain rfl := hmore rfl
  obtain rfl := hmore' rfl
  exact ⟨a, z, by rw [encode_cons, encode_cons, ha, hz]; rfl, hav, hzv⟩

/-- A byte that is a digit is a character of the text. -/
theorem exists_of_encode_eq_cons {t : Text} {b : UInt8} {after : List UInt8}
    (h : encode t = b :: after) (hb : IsHexByte b) :
    ∃ c rest, t = c :: rest ∧ IsHex c ∧ after = encode rest := by
  cases t with
  | nil => cases h
  | cons c rest =>
    obtain ⟨first, more, he, hfirst, hmore⟩ := exists_encodeChar_hex c
    rw [encode_cons, he] at h
    obtain ⟨rfl, rfl⟩ := List.cons.inj h
    rw [IsHexByte, hfirst] at hb
    exact ⟨c, rest, rfl, isHex_iff.mpr hb, by rw [hmore hb]; rfl⟩

theorem exists_of_encode_eq {t : Text} {a z : UInt8} {after : List UInt8}
    (h : encode t = a :: z :: after) (hdigits : IsHexByte a ∧ IsHexByte z) :
    ∃ high low rest, t = high :: low :: rest ∧ IsHex high ∧ IsHex low ∧ after = encode rest := by
  obtain ⟨high, t, rfl, hhigh, ht⟩ := exists_of_encode_eq_cons h hdigits.1
  obtain ⟨low, rest, rfl, hlow, hrest⟩ := exists_of_encode_eq_cons ht.symm hdigits.2
  exact ⟨high, low, rest, rfl, hhigh, hlow, hrest⟩

/-! ## Replacing -/

theorem replaced_cons {b : UInt8} (hb : b ≠ 0x25) (rest : List UInt8) :
    replaced (b :: rest) = b :: replaced rest := by
  rw [replaced.eq_def]
  exact if_neg hb

theorem replaced_append {front : List UInt8} (h : 0x25 ∉ front) (rest : List UInt8) :
    replaced (front ++ rest) = front ++ replaced rest := by
  induction front with
  | nil => rfl
  | cons b front ih =>
    rw [List.mem_cons, not_or] at h
    rw [List.cons_append, replaced_cons (Ne.symm h.1), ih h.2]
    rfl

theorem replaced_escape {high low : UInt8} {h l : Nat} (hh : hexValue? high = some h)
    (hl : hexValue? low = some l) (rest : List UInt8) :
    replaced (0x25 :: high :: low :: rest) = UInt8.ofNat (16 * h + l) :: replaced rest := by
  rw [replaced.eq_def]
  simp only [hh, hl, if_true]

/-- A percent sign that begins no escape is kept. -/
theorem replaced_percent {rest : List UInt8}
    (hno : ∀ high low after, rest = high :: low :: after → ¬ (IsHexByte high ∧ IsHexByte low)) :
    replaced (0x25 :: rest) = 0x25 :: replaced rest := by
  rw [replaced.eq_def]
  simp only [if_true]
  split
  · next high low after =>
    split
    · next hh hl =>
      have hdigits : IsHexByte high ∧ IsHexByte low := by
        rw [IsHexByte, IsHexByte, hh, hl]
        exact ⟨rfl, rfl⟩
      exact absurd hdigits (hno high low after rfl)
    · rfl
  · rfl

/-- Replacing bytes is what the lenient reader does with characters. -/
theorem replaced_encode (t : Text) : replaced (encode t) = bytesLenient t := by
  fun_induction bytesLenient t with
  | case1 => rfl
  | case2 high low rest b hb ih =>
    obtain ⟨h, hh, hb⟩ := Option.bind_eq_some_iff.mp hb
    obtain ⟨l, hl, hb⟩ := Option.bind_eq_some_iff.mp hb
    obtain ⟨a, z, he, ha, hz⟩ := encode_digits hh hl rest
    rw [encode_percent, he, replaced_escape ha hz, ih]
    exact congrArg (· :: bytesLenient rest) (Option.some.inj hb)
  | case3 high low rest hb ih =>
    rw [encode_percent, replaced_percent, ih]
    intro a z after he hdigits
    obtain ⟨_, _, _, ⟨⟩, hhigh, hlow, _⟩ := exists_of_encode_eq he hdigits
    have hsome := isSome_byte?_iff.mpr ⟨hhigh, hlow⟩
    rw [hb] at hsome
    cases hsome
  | case4 c ih =>
    rw [encode_percent, replaced_percent, ih]
    intro a z after he hdigits
    obtain ⟨_, _, _, ⟨⟩, _⟩ := exists_of_encode_eq he hdigits
  | case5 => rfl
  | case6 c rest hc ih => rw [encode_cons, replaced_append (mt mem_encodeChar_percent hc), ih]

/-! ## The two passes -/

/-- A percent sign among the bytes of a text is a character of it, and so are
the digits behind it. -/
theorem scanFrom_encode_iff (raw : Text) : scanFrom (encode raw) 0 = true ↔ Complete raw := by
  rw [scanFrom_iff, List.drop_zero]
  constructor
  · rintro h front back rfl
    have he : encode (front ++ '%' :: back) = encode front ++ 0x25 :: encode back := by
      rw [encode_append, encode_percent]
    obtain ⟨a, z, after, hback, ha, hz⟩ := h _ _ he
    obtain ⟨high, low, rest, rfl, hhigh, hlow, _⟩ := exists_of_encode_eq hback ⟨ha, hz⟩
    exact ⟨high, low, rest, rfl, hhigh, hlow⟩
  · intro h front back he
    have hcut : isBoundary (encode raw) front.length = true := by
      rw [he, ← Nat.add_zero front.length, isBoundary_append]
      rfl
    obtain ⟨before, after, rfl, hsize⟩ := isBoundary_encode_iff.mp hcut
    rw [encode_append] at he
    obtain ⟨_, he⟩ := List.append_inj he hsize.symm
    cases after with
    | nil => cases he
    | cons c after =>
      obtain ⟨first, more, hc, _⟩ := exists_encodeChar c
      have hfirst : first = 0x25 := by
        rw [encode_cons, hc] at he
        exact (List.cons.inj he).1
      obtain rfl := mem_encodeChar_percent (hfirst ▸ hc ▸ List.mem_cons_self)
      obtain ⟨high, low, rest, rfl, ⟨dh, hdh⟩, ⟨dl, hdl⟩⟩ := h before after rfl
      obtain ⟨a, z, hback, ha, hz⟩ :=
        encode_digits (Numeral.digit?_sixteen.mpr hdh) (Numeral.digit?_sixteen.mpr hdl) rest
      rw [encode_percent, hback] at he
      exact ⟨a, z, encode rest, (List.cons.inj he).2.symm, Option.isSome_iff_exists.mpr ⟨dh, ha⟩,
        Option.isSome_iff_exists.mpr ⟨dl, hz⟩⟩

/-- A text is read if its escapes are complete and the bytes they leave are UTF-8, and it is read as
the text of these bytes. -/
theorem decode?_eq_some_iff {raw s : Text} :
    decode? raw = some s ↔ Complete raw ∧ replaced (encode raw) = encode s := by
  rw [decode?, Option.bind_eq_some_iff, replaced_encode]
  constructor
  · rintro ⟨bytes, hbytes, hs⟩
    refine ⟨(isSome_bytes?_iff raw).mp (Option.isSome_iff_exists.mpr ⟨bytes, hbytes⟩), ?_⟩
    rw [bytesLenient_of_bytes? hbytes]
    exact Utf8.decode?_eq_some_iff.mp hs
  · rintro ⟨hcomplete, hs⟩
    obtain ⟨bytes, hbytes⟩ := Option.isSome_iff_exists.mp ((isSome_bytes?_iff raw).mpr hcomplete)
    rw [bytesLenient_of_bytes? hbytes] at hs
    exact ⟨bytes, hbytes, Utf8.decode?_eq_some_iff.mpr hs⟩

/-- The text passes the test of strict reading. -/
def Decodable (raw : Text) : Prop := Complete raw ∧ (replaced (encode raw)).toByteArray.IsValidUTF8

theorem decode?_eq_none_iff {raw : Text} : decode? raw = none ↔ ¬ Decodable raw := by
  rw [Decodable, isValidUTF8_iff, Option.eq_none_iff_forall_ne_some, ← not_exists]
  simp only [decode?_eq_some_iff, exists_and_left]

/-- A reader that replaces every complete escape, keeps all other bytes and fails exactly at
bytes that are not UTF-8. -/
def Replaces (read : Text → Option Text) : Prop :=
  ∀ t s, read t = some s ↔ replaced (encode t) = encode s

/-- Such a reader. -/
def replacing (raw : Text) : Option Text := Utf8.decode? (replaced (encode raw))

theorem replaces_replacing : Replaces replacing := fun _ _ => Utf8.decode?_eq_some_iff

/-- Whatever such a reader does with broken escapes, behind the scan it is the strict reader. -/
theorem guarded_eq_decode? {read : Text → Option Text} (h : Replaces read) (raw : Text) :
    guarded read raw = decode? raw := by
  refine Option.ext fun s => ?_
  rw [guarded, decode?_eq_some_iff, ← scanFrom_encode_iff, ← h raw s]
  split
  · next hscan => exact ⟨fun hs => ⟨hscan, hs⟩, fun hs => hs.2⟩
  · next hscan => exact ⟨nofun, fun hs => absurd hs.1 hscan⟩

end Percent

end RouteBook.Text
