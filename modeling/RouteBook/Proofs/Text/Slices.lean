import Mathlib
import RouteBook.Text.Utf8.Lemmas

/-! # Cutting the bytes of a text

Offsets into the bytes of a text are numbers, and most numbers are no place to cut: they lie inside
a character or behind the end. The offsets at which a text can be cut are the sizes of its
beginnings, and where the bytes of one text are found in those of another, the text itself stands,
so what a search returns can be cut at. -/

namespace RouteBook.Text.Utf8

/-- A character begins at the offset, or the bytes end there. -/
def isBoundary (bytes : List UInt8) (offset : Nat) : Bool :=
  match bytes[offset]? with
  | some b => !isTail b
  | none => offset == bytes.length

/-- The bytes between two offsets, if they are in order and no character is cut. -/
def slice? (bytes : List UInt8) (start stop : Nat) : Option (List UInt8) :=
  if start ≤ stop ∧ isBoundary bytes start = true ∧ isBoundary bytes stop = true then
    some ((bytes.drop start).take (stop - start))
  else none

/-- The first offset from which the bytes go on with the needle. -/
def find? (needle : List UInt8) : List UInt8 → Option Nat
  | [] => if needle = [] then some 0 else none
  | b :: rest => if needle.isPrefixOf (b :: rest) then some 0 else (find? needle rest).map (· + 1)

/-- The number of bytes of the first character. -/
def firstWidth (bytes : List UInt8) : Nat :=
  match scan bytes with
  | some c :: _ => (encodeChar c).length
  | _ => 0

def lowerByte (b : UInt8) : UInt8 := if 0x41 ≤ b ∧ b ≤ 0x5A then b + 0x20 else b

/-! ## Characters -/

/-- The first byte of a character tells that it is the first, and whether the
character has more than one. -/
theorem exists_encodeChar (c : Char) :
    ∃ first more, encodeChar c = first :: more ∧ isTail first = false ∧
      (∀ b ∈ more, isTail b = true) ∧
      (0x80 ≤ c.toNat → 0x80 ≤ first.toNat) := by
  have hc := toNat_lt c
  have hnot {n : Nat} (h : n < 0x80 ∨ 0xC0 ≤ n) (h' : n < 256) :
      isTail (UInt8.ofNat n) = false := by
    rw [← Bool.not_eq_true, isTail_iff, toNat_ofNat_of_lt h']
    omega
  have hle {n : Nat} (h : 0x80 ≤ n) (h' : n < 256) : 0x80 ≤ (UInt8.ofNat n).toNat := by
    rwa [toNat_ofNat_of_lt h']
  unfold encodeChar
  simp only
  split
  · exact ⟨_, _, rfl, hnot (.inl ‹_›) (by omega), by simp, fun h => hle h (by omega)⟩
  · split
    · exact ⟨_, _, rfl, hnot (.inr (by omega)) (by omega), by simp [isTail_tail],
        fun _ => hle (by omega) (by omega)⟩
    · split
      · exact ⟨_, _, rfl, hnot (.inr (by omega)) (by omega), by simp [isTail_tail],
          fun _ => hle (by omega) (by omega)⟩
      · exact ⟨_, _, rfl, hnot (.inr (by omega)) (by omega), by simp [isTail_tail],
          fun _ => hle (by omega) (by omega)⟩

theorem encode_eq_nil_iff {t : Text} : encode t = [] ↔ t = [] := by
  cases t with
  | nil => simp
  | cons c t =>
    obtain ⟨first, more, hc, _⟩ := exists_encodeChar c
    simp [hc]

theorem encode_injective {s t : Text} (h : encode s = encode t) : s = t := by
  have hs := decode?_encode s
  rw [h, decode?_encode] at hs
  exact (Option.some.inj hs).symm

theorem encode_prefix_iff {s t : Text} : encode s <+: encode t ↔ s <+: t := by
  constructor
  · rintro ⟨rest, h⟩
    have hscan := congrArg scan h
    rw [scan_encode_append, scan_encode] at hscan
    obtain ⟨front, back, rfl, hfront, _⟩ := List.map_eq_append_iff.mp hscan.symm
    obtain rfl := List.map_injective_iff.mpr (Option.some_injective Char) hfront
    exact List.prefix_append front back
  · rintro ⟨rest, rfl⟩
    rw [encode_append]
    exact List.prefix_append _ _

theorem dropPrefix?_eq_some_iff {needle bytes rest : List UInt8} :
    bytes.dropPrefix? needle = some rest ↔ bytes = needle ++ rest := by
  rw [List.dropPrefix?_eq_some_iff]
  constructor
  · rintro ⟨front, rfl, he⟩
    rw [eq_of_beq he]
  · rintro rfl
    exact ⟨needle, rfl, beq_self_eq_true needle⟩

theorem dropPrefix?_encode (front t : Text) :
    (encode t).dropPrefix? (encode front) = (after? front t).map encode := by
  cases ha : after? front t with
  | some rest =>
    rw [Option.map_some, dropPrefix?_eq_some_iff, after?_eq_some_iff.mp ha, encode_append]
  | none =>
    rw [Option.map_none, Option.eq_none_iff_forall_ne_some]
    intro bytes hb
    rw [dropPrefix?_eq_some_iff] at hb
    obtain ⟨rest, rfl⟩ := encode_prefix_iff.mp ⟨bytes, hb.symm⟩
    rw [after?_eq_some_iff.mpr rfl] at ha
    cases ha

/-! ## Where a text can be cut -/

theorem isBoundary_append (front back : List UInt8) (n : Nat) :
    isBoundary (front ++ back) (front.length + n) = isBoundary back n := by
  have hlength : (front.length + n == front.length + back.length) = (n == back.length) := by
    rw [Bool.eq_iff_iff, beq_iff_eq, beq_iff_eq, Nat.add_left_cancel_iff]
  rw [isBoundary, List.getElem?_append_right (Nat.le_add_right _ _), Nat.add_sub_cancel_left,
    List.length_append, hlength]
  rfl

theorem isBoundary_zero (t : Text) : isBoundary (encode t) 0 = true := by
  cases t with
  | nil => rfl
  | cons c t =>
    obtain ⟨first, more, hc, hfirst, _⟩ := exists_encodeChar c
    simp [isBoundary, hc, hfirst]

theorem isBoundary_size (front back : Text) :
    isBoundary (encode (front ++ back)) (size front) = true := by
  rw [encode_append, size, ← Nat.add_zero (encode front).length, isBoundary_append]
  exact isBoundary_zero back

/-- The boundaries are the sizes of the beginnings of the text. -/
theorem isBoundary_encode_iff {t : Text} {n : Nat} :
    isBoundary (encode t) n = true ↔ ∃ front back, t = front ++ back ∧ n = size front := by
  constructor
  · intro h
    induction t generalizing n with
    | nil =>
      refine ⟨[], [], rfl, ?_⟩
      simpa [isBoundary, size] using h
    | cons c t ih =>
      obtain ⟨first, more, hc, _, hmore, _⟩ := exists_encodeChar c
      -- The offset lies in the first character or behind it.
      by_cases hn : n < (encodeChar c).length
      · cases n with
        | zero => exact ⟨[], c :: t, rfl, rfl⟩
        | succ n =>
          rw [hc, List.length_cons, Nat.succ_lt_succ_iff] at hn
          have htail := hmore more[n] (List.getElem_mem hn)
          simp [isBoundary, hc, List.getElem?_append_left hn, List.getElem?_eq_getElem hn, htail]
            at h
      · obtain ⟨m, rfl⟩ := Nat.exists_eq_add_of_le (Nat.le_of_not_lt hn)
        rw [encode_cons, isBoundary_append] at h
        obtain ⟨front, back, rfl, rfl⟩ := ih h
        exact ⟨c :: front, back, rfl, by simp [size]⟩
  · rintro ⟨front, back, rfl, rfl⟩
    exact isBoundary_size front back

theorem encode_suffix_iff {s t : Text} : encode s <:+ encode t ↔ s <:+ t := by
  constructor
  · rintro ⟨before, h⟩
    have hcut : isBoundary (encode t) before.length = true := by
      rw [← h, ← Nat.add_zero before.length, isBoundary_append]
      exact isBoundary_zero s
    obtain ⟨front, back, rfl, hsize⟩ := isBoundary_encode_iff.mp hcut
    rw [encode_append] at h
    obtain rfl := encode_injective (List.append_inj_right h hsize)
    exact List.suffix_append front s
  · rintro ⟨front, rfl⟩
    rw [encode_append]
    exact List.suffix_append _ _

theorem size_eq_zero_iff {t : Text} : size t = 0 ↔ t = [] := by
  rw [size, List.length_eq_zero_iff, encode_eq_nil_iff]

theorem size_append (front back : Text) : size (front ++ back) = size front + size back := by
  simp [size, encode_append]

/-- Between two of its beginnings, a text is cut into texts. -/
theorem slice?_encode (front mid back : Text) :
    slice? (encode (front ++ (mid ++ back))) (size front) (size front + size mid) =
      some (encode mid) := by
  have hstop := isBoundary_size (front ++ mid) back
  rw [size_append, List.append_assoc] at hstop
  rw [slice?, if_pos ⟨Nat.le_add_right _ _, isBoundary_size front _, hstop⟩, encode_append,
    encode_append, size, List.drop_left, Nat.add_sub_cancel_left, size, List.take_left]

theorem slice?_back (front back : Text) :
    slice? (encode (front ++ back)) (size front) (encode (front ++ back)).length =
      some (encode back) := by
  have h := slice?_encode front back []
  rwa [List.append_nil, ← size_append, size, size] at h

theorem slice?_front (front back : Text) :
    slice? (encode (front ++ back)) 0 (size front) = some (encode front) := by
  simpa [size] using slice?_encode [] front back

theorem suffix_of_slice? {bytes left : List UInt8} {start : Nat}
    (h : slice? bytes start bytes.length = some left) :
    left <:+ bytes ∧ left.length = bytes.length - start := by
  unfold slice? at h
  split at h
  · cases h
    rw [List.take_of_length_le (by simp)]
    exact ⟨List.drop_suffix start bytes, List.length_drop⟩
  · cases h

/-! ## What a search returns -/

theorem prefix_of_find?_zero {needle bytes : List UInt8} (h : find? needle bytes = some 0) :
    needle <+: bytes := by
  cases bytes with
  | nil =>
    rw [find?] at h
    split at h
    · next hn => exact hn ▸ List.nil_prefix
    · cases h
  | cons b rest =>
    rw [find?] at h
    split at h
    · next hp => exact List.isPrefixOf_iff_prefix.mp hp
    · obtain ⟨n, _, hn⟩ := Option.map_eq_some_iff.mp h
      cases hn

/-- What stands inside a character begins no text. -/
theorem find?_tails {needle : Text} (hne : needle ≠ []) {tails : List UInt8}
    (ht : ∀ b ∈ tails, isTail b = true) (rest : List UInt8) :
    find? (encode needle) (tails ++ rest) =
      (find? (encode needle) rest).map (· + tails.length) := by
  induction tails with
  | nil => simp
  | cons b tails ih =>
    obtain ⟨hb, ht⟩ := List.forall_mem_cons.mp ht
    obtain ⟨c, needle, rfl⟩ := List.exists_cons_of_ne_nil hne
    obtain ⟨first, more, hc, hfirst, _⟩ := exists_encodeChar c
    have hne : first ≠ b := fun he => by rw [he, hb] at hfirst; cases hfirst
    have hp : ¬ (encode (c :: needle)).isPrefixOf (b :: (tails ++ rest)) = true := by simp [hc, hne]
    rw [List.cons_append, find?, if_neg hp, ih ht, Option.map_map]
    rfl

theorem find?_encode_of_prefix {needle t : Text} (h : needle <+: t) :
    find? (encode needle) (encode t) = some 0 := by
  have hp := List.isPrefixOf_iff_prefix.mpr (encode_prefix_iff.mpr h)
  cases hb : encode t with
  | nil =>
    rw [hb, List.isPrefixOf_iff_prefix] at hp
    rw [find?, if_pos (List.prefix_nil.mp hp)]
  | cons b rest => rw [find?, if_pos (hb ▸ hp)]

theorem find?_encode_cons {needle : Text} {c : Char} {t : Text} (h : ¬ needle <+: c :: t) :
    find? (encode needle) (encode (c :: t)) =
      (find? (encode needle) (encode t)).map (size [c] + ·) := by
  have hne : needle ≠ [] := by
    rintro rfl
    exact h List.nil_prefix
  obtain ⟨first, more, hc, _, hmore, _⟩ := exists_encodeChar c
  have hp : ¬ (encode needle).isPrefixOf (first :: (more ++ encode t)) = true := by
    rw [List.isPrefixOf_iff_prefix, ← List.cons_append, ← hc, ← encode_cons, encode_prefix_iff]
    exact h
  have hsize : size [c] = more.length + 1 := by simp [size, hc]
  rw [encode_cons, hc, List.cons_append, find?, if_neg hp, find?_tails hne hmore,
    Option.map_map, hsize]
  exact congrArg (Option.map · _) (funext fun n => by simp only [Function.comp_apply]; omega)

theorem find?_encode_of_seek? {needle t found : Text} (h : seek? needle t = some found) :
    ∃ skipped, t = skipped ++ found ∧ find? (encode needle) (encode t) = some (size skipped) := by
  induction t with
  | nil =>
    rw [seek?] at h
    split at h
    · next hn =>
      cases h
      exact ⟨[], rfl, find?_encode_of_prefix (hn ▸ List.nil_prefix)⟩
    · cases h
  | cons c t ih =>
    rw [seek?] at h
    split at h
    · next hp =>
      cases h
      exact ⟨[], rfl, find?_encode_of_prefix (List.isPrefixOf_iff_prefix.mp hp)⟩
    · next hp =>
      obtain ⟨skipped, rfl, hfind⟩ := ih h
      refine ⟨c :: skipped, rfl, ?_⟩
      rw [find?_encode_cons (fun hpre => hp (List.isPrefixOf_iff_prefix.mpr hpre)), hfind]
      exact congrArg some (size_append [c] skipped).symm

theorem find?_encode_eq_none {needle t : Text} (h : seek? needle t = none) :
    find? (encode needle) (encode t) = none := by
  induction t with
  | nil =>
    rw [seek?] at h
    split at h
    · cases h
    · next hn => simp [find?, encode_eq_nil_iff, hn]
  | cons c t ih =>
    rw [seek?] at h
    split at h
    · cases h
    · next hp =>
      rw [find?_encode_cons (fun hpre => hp (List.isPrefixOf_iff_prefix.mpr hpre)), ih h]
      rfl

/-- One character is found behind all that is different from it. -/
theorem find?_encode_char (sep : Char) (t : Text) :
    find? (encode [sep]) (encode t) =
      if sep ∈ t then some (size (t.takeWhile (· != sep))) else none := by
  induction t with
  | nil => rw [if_neg List.not_mem_nil, find?_encode_eq_none rfl]
  | cons c t ih =>
    by_cases hc : c = sep
    · subst hc
      have hp : [c] <+: c :: t := List.prefix_append [c] t
      rw [if_pos List.mem_cons_self, find?_encode_of_prefix hp]
      simp [size]
    · have hp : ¬ [sep] <+: c :: t := fun hp => hc (List.cons_prefix_cons.mp hp).1.symm
      have htake : (c :: t).takeWhile (· != sep) = c :: t.takeWhile (· != sep) :=
        List.takeWhile_cons_of_pos (bne_iff_ne.mpr hc)
      rw [find?_encode_cons hp, ih, htake]
      by_cases hm : sep ∈ t
      · rw [if_pos hm, if_pos (List.mem_cons_of_mem c hm)]
        exact congrArg some (size_append [c] _).symm
      · have hm' : sep ∉ c :: t := by simp [hm, Ne.symm hc]
        rw [if_neg hm, if_neg hm']
        rfl

theorem findEnd_encode_char (sep : Char) (t : Text) :
    (find? (encode [sep]) (encode t)).getD (encode t).length = size (t.takeWhile (· != sep)) := by
  rw [find?_encode_char]
  split
  · rfl
  · next hm =>
    have hall : ∀ c ∈ t, (c != sep) = true := fun c hc => bne_iff_ne.mpr fun he => hm (he ▸ hc)
    rw [List.takeWhile_eq_self_iff.mpr hall]
    rfl

theorem isSome_find?_encode_char (sep : Char) (t : Text) :
    (find? (encode [sep]) (encode t)).isSome = decide (sep ∈ t) := by
  rw [find?_encode_char]
  by_cases hm : sep ∈ t <;> simp [hm]

/-- A text is cut in front of a character, or not at all. -/
theorem slice?_takeWhile (p : Char → Bool) (t : Text) :
    slice? (encode t) 0 (size (t.takeWhile p)) = some (encode (t.takeWhile p)) ∧
      slice? (encode t) (size (t.takeWhile p)) (encode t).length =
        some (encode (t.dropWhile p)) := by
  have hfront := slice?_front (t.takeWhile p) (t.dropWhile p)
  have hback := slice?_back (t.takeWhile p) (t.dropWhile p)
  rw [List.takeWhile_append_dropWhile] at hfront hback
  exact ⟨hfront, hback⟩

/-- A text is cut behind a character that was found. -/
theorem slice?_cut {sep : Char} {t front back : Text} (h : cut? sep t = some (front, back)) :
    find? (encode [sep]) (encode t) = some (size front) ∧
      slice? (encode t) (size front + size [sep]) (encode t).length = some (encode back) := by
  obtain ⟨rfl, hsep⟩ := eq_append_of_cut? h
  have hall : ∀ c ∈ front, (c != sep) = true := fun c hc => bne_iff_ne.mpr fun he => hsep (he ▸ hc)
  have htake : (front ++ sep :: back).takeWhile (· != sep) = front := by
    rw [List.takeWhile_append_of_pos hall]
    simp
  have hback := slice?_back (front ++ [sep]) back
  rw [List.append_assoc, size_append] at hback
  refine ⟨?_, hback⟩
  rw [find?_encode_char, if_pos (by simp), htake]

theorem firstWidth_encode (c : Char) (t : Text) : firstWidth (encode (c :: t)) = size [c] := by
  rw [firstWidth, scan_encode]
  simp [size]

/-! ## Lower case -/

theorem le_of_mem_encodeChar {c : Char} (hc : 0x80 ≤ c.toNat) {b : UInt8} (hb : b ∈ encodeChar c) :
    0x80 ≤ b.toNat := by
  obtain ⟨first, more, he, _, hmore, hfirst⟩ := exists_encodeChar c
  rw [he] at hb
  rcases List.mem_cons.mp hb with rfl | hb
  · exact hfirst hc
  · exact (isTail_iff.mp (hmore b hb)).1

theorem map_lowerByte_encodeChar (c : Char) :
    (encodeChar c).map lowerByte = encodeChar c.toLower := by
  by_cases hc : c.toNat < 0x80
  · have hascii : ∀ n < 0x80, (encodeChar (Char.ofNat n)).map lowerByte =
        encodeChar (Char.ofNat n).toLower := by
      decide +kernel
    simpa using hascii c.toNat hc
  · -- Neither the character nor one of its bytes is a letter.
    have hchar : c.toLower = c := by
      refine Char.toLower_eq_of_not_isUpper fun hu => ?_
      simp only [Char.isUpper, decide_eq_true_eq, UInt32.le_iff_toNat_le] at hu
      exact hc (Nat.lt_of_le_of_lt hu.2 (by decide))
    rw [hchar]
    refine (List.map_congr_left fun b hb => ?_).trans (List.map_id _)
    have hb := le_of_mem_encodeChar (Nat.le_of_not_lt hc) hb
    refine if_neg fun h => ?_
    simp only [UInt8.le_iff_toNat_le, UInt8.reduceToNat] at h
    omega

theorem map_lowerByte_encode (t : Text) : (encode t).map lowerByte = encode (asciiLower t) := by
  rw [encode, List.map_flatMap, asciiLower, encode, List.flatMap_map]
  simp only [map_lowerByte_encodeChar]

end RouteBook.Text.Utf8
