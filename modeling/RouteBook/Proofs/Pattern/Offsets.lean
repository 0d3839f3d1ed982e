import RouteBook.Pattern.Host
import RouteBook.Pattern.Parse
import RouteBook.Proofs.Pattern.Braces
import RouteBook.Proofs.Text.Pieces
import RouteBook.Proofs.Text.Slices

/-! # Reading and matching by offsets

A pattern can be read, and a host matched, on bytes: what is left is a slice, and where it begins
is counted in bytes. A slice that cuts a character, or that reaches behind the end, is a failure
of its own. It never comes to that: each offset is one of a delimiter or of a text that was
found, plus the size of what stands before it, so each turn leaves the bytes of what the same
turn leaves of the text. -/

namespace RouteBook.Pattern

open Text.Utf8

/-! ## One turn on a text -/

/-- One turn of reading a host prefix: a segment, and what is left. -/
def readTurn (whole : Text) (c : Char) (rest : Text) : Except PatternError (HostSegment × Text) :=
  if c = '\x7b' then
    match Text.cut? '\x7d' rest with
    | none => .error (.invalidHost whole .unclosedLabel)
    | some ([], _) => .error .emptyLabel
    | some (_ :: _, after) => .ok (.label, after)
  else
    let literal := c :: rest.takeWhile (· != '\x7b')
    if '\x7d' ∈ literal then .error (.invalidHost whole .unopenedLabel)
    else .ok (.literal literal, rest.dropWhile (· != '\x7b'))

/-- One turn of matching a host: what is left, if the segment matches. -/
def matchTurn (segment : HostSegment) (next? : Option HostSegment) (host : Text) : Option Text :=
  match segment, host with
  | .literal t, host => Text.after? t host
  | .label, [] => none
  | .label, c :: rest =>
    match next? with
    | some (.literal next) => Text.seek? next rest
    | _ => if c = '.' then none else some (rest.dropWhile (· != '.'))

theorem hostSegments_cons (whole : Text) (c : Char) (rest : Text) :
    hostSegments whole (c :: rest) =
      (readTurn whole c rest).bind fun turn => (hostSegments whole turn.2).map (turn.1 :: ·) := by
  rw [hostSegments, readTurn]
  split
  · split
    · next h => simp only [h]; rfl
    · next h => simp only [h]; rfl
    · next h => simp only [h]; rfl
  · simp only
    split <;> rfl

theorem length_of_readTurn {whole : Text} {c : Char} {rest left : Text} {segment : HostSegment}
    (h : readTurn whole c rest = .ok (segment, left)) : left.length ≤ rest.length := by
  rw [readTurn] at h
  split at h
  · split at h
    · cases h
    · cases h
    · next hcut =>
      cases h
      exact (Text.length_of_cut? hcut).le
  · simp only at h
    split at h
    · cases h
    · cases h
      exact (List.dropWhile_sublist _).length_le

/-- A label that no literal follows ends at the next dot. -/
theorem matchTurn_dot {next? : Option HostSegment} (h : ∀ t, next? ≠ some (.literal t))
    (host : Text) :
    matchTurn .label next? host =
      if host.takeWhile (· != '.') = [] then none else some (host.dropWhile (· != '.')) := by
  cases host with
  | nil => rfl
  | cons c rest =>
    rw [matchTurn]
    · by_cases hc : c = '.' <;> simp [hc]
    · exact h

theorem hostMatches_cons (segment : HostSegment) (segments : List HostSegment) (host : Text) :
    hostMatches (segment :: segments) host =
      (matchTurn segment segments.head? host).any (hostMatches segments) := by
  cases segment with
  | literal t =>
    rw [hostMatches, matchTurn]
    cases Text.after? t host <;> rfl
  | label =>
    cases host with
    | nil => rfl
    | cons c rest =>
      cases segments with
      | nil =>
        rw [hostMatches]
        · by_cases hc : c = '.' <;> simp [matchTurn, hc]
        · simp
      | cons next segments =>
        cases next with
        | literal t =>
          simp only [hostMatches, matchTurn, List.head?_cons]
          cases Text.seek? t rest <;> rfl
        | label =>
          rw [hostMatches]
          · by_cases hc : c = '.' <;> simp [matchTurn, hc]
          · simp

/-! ## The same turns on bytes -/

namespace Offsets

/-- A segment of the path. The delimiters are one byte each, and they are different bytes. -/
def pathSegment (bytes : List UInt8) : Option (Except PatternError PathSegment) :=
  if bytes = [] then some (.error .emptyPathSegment)
  else if isDots (decodeLossy bytes) then some (.error .dotSegment)
  else
    match (encode ['\x7b']).isPrefixOf bytes, (encode ['\x7d']).isSuffixOf bytes with
    | true, true =>
      (slice? bytes 1 (bytes.length - 1)).map fun inner => labelSegment (decodeLossy inner)
    | true, false => some (.error (.unclosedLabel (decodeLossy bytes)))
    | false, true => some (.error (.unopenedLabel (decodeLossy bytes)))
    | false, false =>
      some (match Text.Percent.decode? (decodeLossy bytes) with
        | none => .error (.malformedEscape (decodeLossy bytes))
        | some decoded => if isDots decoded then .error .dotSegment else .ok (.literal decoded))

/-- One turn of reading a host prefix. -/
def readTurn (whole rest : List UInt8) : Option (Except PatternError (HostSegment × List UInt8)) :=
  match rest.dropPrefix? (encode ['\x7b']) with
  | some after =>
    match find? (encode ['\x7d']) after with
    | none => some (.error (.invalidHost (decodeLossy whole) .unclosedLabel))
    | some close =>
      if close = 0 then some (.error .emptyLabel)
      else (slice? after (close + 1) after.length).map fun left => .ok (.label, left)
  | none =>
    let stop := (find? (encode ['\x7b']) rest).getD rest.length
    (slice? rest 0 stop).bind fun literal =>
      if (find? (encode ['\x7d']) literal).isSome then
        some (.error (.invalidHost (decodeLossy whole) .unopenedLabel))
      else (slice? rest stop rest.length).map fun left => .ok (.literal (decodeLossy literal), left)

/-- Where a label ends: at the next literal, looked for from the second character on, or
else at the next dot. -/
def labelEnd? (next? : Option HostSegment) (rest : List UInt8) : Option Nat :=
  match next? with
  | some (.literal next) =>
    let skip := firstWidth rest
    (slice? rest skip rest.length).bind fun tail => (find? (encode next) tail).map (· + skip)
  | _ => some ((find? (encode ['.']) rest).getD rest.length)

/-- One turn of matching a host. The outer `none` is a slice that failed. -/
def matchTurn (segment : HostSegment) (next? : Option HostSegment) (rest : List UInt8) :
    Option (Option (List UInt8)) :=
  match segment with
  | .literal t => some (rest.dropPrefix? (encode t))
  | .label =>
    match labelEnd? next? rest with
    | none => some none
    | some stop => if 0 < stop then (slice? rest stop rest.length).map some else some none

/-- A turn leaves less than there was, whatever the bytes are. -/
theorem readTurn_left {whole rest left : List UInt8} {segment : HostSegment}
    (h : readTurn whole rest = some (.ok (segment, left))) :
    left <:+ rest ∧ (rest ≠ [] → left.length < rest.length) := by
  unfold readTurn at h
  split at h
  · next after hafter =>
    rw [dropPrefix?_eq_some_iff] at hafter
    split at h
    · cases h
    · split at h
      · cases h
      · obtain ⟨left, hslice, hleft⟩ := Option.map_eq_some_iff.mp h
        cases hleft
        have hsuffix := (suffix_of_slice? hslice).1
        rw [hafter]
        refine ⟨hsuffix.trans (List.suffix_append _ _), fun _ => ?_⟩
        rw [List.length_append]
        exact Nat.lt_of_le_of_lt hsuffix.length_le (Nat.lt_add_of_pos_left (by decide))
  · next hnone =>
    obtain ⟨literal, -, h⟩ := Option.bind_eq_some_iff.mp h
    split at h
    · cases h
    · obtain ⟨left, hslice, hleft⟩ := Option.map_eq_some_iff.mp h
      cases hleft
      obtain ⟨hsuffix, hlength⟩ := suffix_of_slice? hslice
      refine ⟨hsuffix, fun hne => ?_⟩
      -- An opening brace at the front would have begun a label.
      have hstop : 0 < (find? (encode ['\x7b']) rest).getD rest.length := by
        cases hf : find? (encode ['\x7b']) rest with
        | none => exact List.length_pos_of_ne_nil hne
        | some stop =>
          refine Nat.pos_of_ne_zero fun hzero => ?_
          obtain rfl : stop = 0 := hzero
          obtain ⟨after, rfl⟩ := prefix_of_find?_zero hf
          rw [dropPrefix?_eq_some_iff.mpr rfl] at hnone
          cases hnone
      rw [hlength]
      exact Nat.sub_lt (List.length_pos_of_ne_nil hne) hstop

/-- The segments of a host prefix, turn by turn. -/
def hostSegments (whole rest : List UInt8) : Option (Except PatternError (List HostSegment)) :=
  if hne : rest = [] then some (.ok [])
  else
    match h : readTurn whole rest with
    | none => none
    | some (.error e) => some (.error e)
    | some (.ok (segment, left)) =>
      have := (readTurn_left h).2 hne
      (hostSegments whole left).map (·.map (segment :: ·))
  termination_by rest.length

def parseHost (bytes : List UInt8) : Option (Except PatternError (List HostSegment)) :=
  hostSegments bytes bytes

/-- Whether a host in lower case begins as the segments ask, turn by turn. -/
def hostMatches : List HostSegment → List UInt8 → Option Bool
  | [], _ => some true
  | segment :: segments, rest =>
    match matchTurn segment segments.head? rest with
    | none => none
    | some none => some false
    | some (some left) => hostMatches segments left

def matchHost (p : Pattern) (host : Option (List UInt8)) : Option Bool :=
  match p.host, host with
  | some segments, some bytes => hostMatches segments (bytes.map lowerByte)
  | _, _ => some true

/-! ## Turns on the bytes of a text -/

theorem isPrefixOf_encode_char (d c : Char) (rest : Text) :
    (encode [d]).isPrefixOf (encode (c :: rest)) = (c == d) := by
  rw [Bool.eq_iff_iff, List.isPrefixOf_iff_prefix, encode_prefix_iff, beq_iff_eq,
    List.cons_prefix_cons]
  exact ⟨fun h => h.1.symm, fun h => ⟨h.symm, List.nil_prefix⟩⟩

theorem isSuffixOf_encode_char (d : Char) (t : Text) :
    (encode [d]).isSuffixOf (encode t) = (t.getLast? == some d) := by
  rw [Bool.eq_iff_iff, List.isSuffixOf_iff_suffix, encode_suffix_iff, beq_iff_eq,
    List.getLast?_eq_some_iff]
  exact ⟨fun ⟨front, h⟩ => ⟨front, h.symm⟩, fun ⟨front, h⟩ => ⟨front, h.symm⟩⟩

/-- Two braces that are different characters are different bytes, so there is room between them. -/
theorem slice?_braced (inner : Text) :
    slice? (encode (braced inner)) 1 ((encode (braced inner)).length - 1) =
      some (encode inner) := by
  have hstop : (encode (braced inner)).length - 1 = size ['\x7b'] + size inner := by
    show size (['\x7b'] ++ (inner ++ ['\x7d'])) - 1 = _
    rw [size_append, size_append, ← Nat.add_assoc]
    rfl
  rw [hstop]
  exact slice?_encode ['\x7b'] inner ['\x7d']

theorem pathSegment_encode (t : Text) : pathSegment (encode t) = some (Pattern.pathSegment t) := by
  cases t with
  | nil => rfl
  | cons c rest =>
    have hne : encode (c :: rest) ≠ [] := mt encode_eq_nil_iff.mp (List.cons_ne_nil c rest)
    rw [pathSegment, if_neg hne, decodeLossy_encode, isPrefixOf_encode_char, isSuffixOf_encode_char,
      Pattern.pathSegment]
    cases hdots : isDots (c :: rest) with
    | true => rfl
    | false =>
      cases hopen : c == '\x7b' with
      | false =>
        cases hclose : (c :: rest).getLast? == some '\x7d' <;> rfl
      | true =>
        cases hclose : (c :: rest).getLast? == some '\x7d' with
        | false => rfl
        | true =>
          have hbraced := eq_braced (beq_iff_eq.mp hopen) (beq_iff_eq.mp hclose)
          simp only [hbraced, slice?_braced, Option.map_some, decodeLossy_encode]
          rfl

theorem readTurn_encode (whole : Text) (c : Char) (rest : Text) :
    readTurn (encode whole) (encode (c :: rest)) =
      some ((Pattern.readTurn whole c rest).map fun turn => (turn.1, encode turn.2)) := by
  have hdrop : (encode (c :: rest)).dropPrefix? (encode ['\x7b']) =
      if c = '\x7b' then some (encode rest) else none := by
    rw [dropPrefix?_encode]
    by_cases hc : c = '\x7b' <;> simp [Text.after?, hc, eq_comm]
  rw [readTurn, hdrop, Pattern.readTurn]
  by_cases hc : c = '\x7b'
  · rw [if_pos hc, if_pos hc]
    cases hcut : Text.cut? '\x7d' rest with
    | none =>
      have hfind : find? (encode ['\x7d']) (encode rest) = none := by
        rw [find?_encode_char, if_neg (Text.cut?_eq_none_iff.mp hcut)]
      simp only [hfind, decodeLossy_encode]
      rfl
    | some cut =>
      obtain ⟨front, back⟩ := cut
      obtain ⟨hfind, hslice⟩ := slice?_cut hcut
      simp only [hfind, size_eq_zero_iff]
      cases front with
      | nil => rfl
      | cons d front =>
        have hslice : slice? (encode rest) (size (d :: front) + 1) (encode rest).length =
          some (encode back) := hslice
        rw [if_neg (List.cons_ne_nil d front), hslice]
        rfl
  · rw [if_neg hc, if_neg hc]
    obtain ⟨hfront, hback⟩ := slice?_takeWhile (· != '\x7b') (c :: rest)
    have hbne : (c != '\x7b') = true := bne_iff_ne.mpr hc
    have htake : (c :: rest).takeWhile (· != '\x7b') = c :: rest.takeWhile (· != '\x7b') :=
      List.takeWhile_cons_of_pos hbne
    have hskip : (c :: rest).dropWhile (· != '\x7b') = rest.dropWhile (· != '\x7b') :=
      List.dropWhile_cons_of_pos hbne
    rw [htake] at hfront hback
    rw [hskip] at hback
    simp only [findEnd_encode_char, htake, hfront, hback, Option.bind_some,
      isSome_find?_encode_char, decodeLossy_encode, decide_eq_true_eq]
    split <;> rfl

/-- What follows the first character is cut there, and the next literal is looked for in it. -/
theorem labelEnd?_literal (next : Text) (c : Char) (rest : Text) :
    labelEnd? (some (.literal next)) (encode (c :: rest)) =
      (find? (encode next) (encode rest)).map (· + size [c]) := by
  have htail : slice? (encode (c :: rest)) (size [c]) (encode (c :: rest)).length =
      some (encode rest) :=
    slice?_back [c] rest
  simp only [labelEnd?, firstWidth_encode, htail, Option.bind_some]

theorem labelEnd?_dot {next? : Option HostSegment} (h : ∀ t, next? ≠ some (.literal t))
    (host : Text) :
    labelEnd? next? (encode host) = some (size (host.takeWhile (· != '.'))) := by
  rw [labelEnd?, findEnd_encode_char]
  exact h

/-- A label ends behind the characters that it takes. -/
theorem labelEnd?_of_some {next? : Option HostSegment} {host left : Text}
    (h : Pattern.matchTurn .label next? host = some left) :
    ∃ taken, taken ≠ [] ∧ host = taken ++ left ∧
      labelEnd? next? (encode host) = some (size taken) := by
  by_cases hnext : ∃ next, next? = some (.literal next)
  · obtain ⟨next, rfl⟩ := hnext
    cases host with
    | nil => cases h
    | cons c rest =>
      obtain ⟨skipped, rfl, hfind⟩ := find?_encode_of_seek? h
      refine ⟨c :: skipped, List.cons_ne_nil _ _, rfl, ?_⟩
      rw [labelEnd?_literal, hfind, Option.map_some, Nat.add_comm, ← size_append]
      rfl
  · have hother : ∀ t, next? ≠ some (.literal t) := fun t ht => hnext ⟨t, ht⟩
    rw [matchTurn_dot hother] at h
    split at h
    · cases h
    · next hne =>
      cases h
      exact ⟨_, hne, List.takeWhile_append_dropWhile.symm, labelEnd?_dot hother host⟩

theorem labelEnd?_of_none {next? : Option HostSegment} {host : Text}
    (h : Pattern.matchTurn .label next? host = none) {stop : Nat}
    (hend : labelEnd? next? (encode host) = some stop) :
    stop = 0 := by
  by_cases hnext : ∃ next, next? = some (.literal next)
  · obtain ⟨next, rfl⟩ := hnext
    cases host with
    | nil =>
      obtain ⟨n, hfind, rfl⟩ : ∃ n, find? (encode next) [] = some n ∧ n + 0 = stop :=
        Option.map_eq_some_iff.mp hend
      rw [find?] at hfind
      split at hfind
      · cases hfind
        rfl
      · cases hfind
    | cons c rest =>
      rw [labelEnd?_literal, find?_encode_eq_none h] at hend
      cases hend
  · have hother : ∀ t, next? ≠ some (.literal t) := fun t ht => hnext ⟨t, ht⟩
    rw [matchTurn_dot hother] at h
    rw [labelEnd?_dot hother] at hend
    split at h
    · next hnil =>
      cases hend
      exact size_eq_zero_iff.mpr hnil
    · cases h

theorem matchTurn_encode (segment : HostSegment) (next? : Option HostSegment) (host : Text) :
    matchTurn segment next? (encode host) =
      some ((Pattern.matchTurn segment next? host).map encode) := by
  cases segment with
  | literal t => rw [matchTurn, dropPrefix?_encode, Pattern.matchTurn]
  | label =>
    cases hturn : Pattern.matchTurn .label next? host with
    | none =>
      cases hend : labelEnd? next? (encode host) with
      | none => simp only [matchTurn, hend, Option.map_none]
      | some stop =>
        obtain rfl := labelEnd?_of_none hturn hend
        simp [matchTurn, hend]
    | some left =>
      obtain ⟨taken, hne, rfl, hend⟩ := labelEnd?_of_some hturn
      have hpos : 0 < size taken := Nat.pos_of_ne_zero (mt size_eq_zero_iff.mp hne)
      simp only [matchTurn, hend, if_pos hpos, slice?_back, Option.map_some]

/-! ## Whole runs -/

theorem hostSegments_of_ne_nil {whole rest : List UInt8} (hne : rest ≠ []) :
    hostSegments whole rest = (readTurn whole rest).bind fun
      | .error e => some (.error e)
      | .ok (segment, left) => (hostSegments whole left).map (·.map (segment :: ·)) := by
  rw [hostSegments, dif_neg hne]
  split
  · next h => simp only [h, Option.bind_none]
  · next h => simp only [h, Option.bind_some]
  · next h => simp only [h, Option.bind_some]

theorem hostSegments_encode (whole t : Text) :
    hostSegments (encode whole) (encode t) = some (Pattern.hostSegments whole t) := by
  -- A turn can take any number of characters, so the induction is on the length.
  induction hlength : t.length using Nat.strong_induction_on generalizing t with
  | _ n ih =>
    cases t with
    | nil => rw [encode_nil, hostSegments, dif_pos rfl, Pattern.hostSegments]
    | cons c rest =>
      have hne : encode (c :: rest) ≠ [] := mt encode_eq_nil_iff.mp (List.cons_ne_nil c rest)
      rw [hostSegments_of_ne_nil hne, readTurn_encode, hostSegments_cons]
      cases hturn : Pattern.readTurn whole c rest with
      | error e => rfl
      | ok turn =>
        have hlt : turn.2.length < n := by
          rw [← hlength, List.length_cons]
          exact Nat.lt_succ_of_le (length_of_readTurn hturn)
        show (hostSegments (encode whole) (encode turn.2)).map _ = _
        rw [ih _ hlt turn.2 rfl]
        rfl

theorem hostMatches_encode (segments : List HostSegment) (host : Text) :
    hostMatches segments (encode host) = some (Pattern.hostMatches segments host) := by
  induction segments generalizing host with
  | nil => rfl
  | cons segment segments ih =>
    rw [hostMatches, matchTurn_encode, hostMatches_cons]
    cases Pattern.matchTurn segment segments.head? host with
    | none => rfl
    | some left => exact ih left

/-- What is left of a host prefix after some turns. -/
inductive ReadRun (whole : List UInt8) : List UInt8 → Prop where
  | start : ReadRun whole whole
  | turn {rest left : List UInt8} {segment : HostSegment} :
    ReadRun whole rest → rest ≠ [] → readTurn whole rest = some (.ok (segment, left)) →
      ReadRun whole left

/-- What is left of the segments and of a host after a number of turns. -/
inductive MatchRun (segments : List HostSegment) (bytes : List UInt8) :
    Nat → List HostSegment → List UInt8 → Prop where
  | start : MatchRun segments bytes 0 segments bytes
  | turn {turns : Nat} {segment : HostSegment} {more : List HostSegment} {rest left : List UInt8} :
    MatchRun segments bytes turns (segment :: more) rest →
      matchTurn segment more.head? rest = some (some left) →
    MatchRun segments bytes (turns + 1) more left

variable {whole bytes rest left : List UInt8} {segments more : List HostSegment}
  {segment : HostSegment} {turns : Nat}

theorem matchTurn_left {next? : Option HostSegment}
    (h : matchTurn segment next? rest = some (some left)) :
    left <:+ rest := by
  cases segment with
  | literal t =>
    rw [matchTurn, Option.some.injEq, dropPrefix?_eq_some_iff] at h
    exact h ▸ List.suffix_append _ _
  | label =>
    rw [matchTurn] at h
    split at h
    · cases h
    · split at h
      · obtain ⟨bytes, hslice, hleft⟩ := Option.map_eq_some_iff.mp h
        cases hleft
        exact (suffix_of_slice? hslice).1
      · cases h

theorem ReadRun.suffix (h : ReadRun whole rest) : rest <:+ whole := by
  induction h with
  | start => exact List.suffix_rfl
  | turn _ _ hturn ih => exact (readTurn_left hturn).1.trans ih

/-- If no slice fails in the whole loop, none fails in what is left of it. -/
theorem ReadRun.hostSegments_isSome (h : ReadRun whole rest)
    (hw : (hostSegments whole whole).isSome) :
    (hostSegments whole rest).isSome := by
  induction h with
  | start => exact hw
  | turn _ hne hturn ih =>
    rw [hostSegments_of_ne_nil hne, hturn] at ih
    simpa using ih

theorem MatchRun.suffix (h : MatchRun segments bytes turns more rest) : rest <:+ bytes := by
  induction h with
  | start => exact List.suffix_rfl
  | turn _ hturn ih => exact (matchTurn_left hturn).trans ih

theorem MatchRun.length (h : MatchRun segments bytes turns more rest) :
    turns + more.length = segments.length := by
  induction h with
  | start => exact Nat.zero_add _
  | turn _ _ ih =>
    rw [List.length_cons] at ih
    omega

theorem MatchRun.hostMatches_eq (h : MatchRun segments bytes turns more rest) :
    hostMatches segments bytes = hostMatches more rest := by
  induction h with
  | start => rfl
  | turn _ hturn ih => rw [ih, hostMatches, hturn]

/-- On the bytes of a text every slice is in range and cuts no character, so reading a segment
or a host prefix and matching a host give what they give on the text, whatever segments a
pattern asks for. Each turn leaves the end of what there was, and a host is matched in no more
turns than there are segments. -/
theorem reads_and_matches {bytes : List UInt8} {t : Text} (h : decode? bytes = some t) :
    pathSegment bytes = some (Pattern.pathSegment t) ∧
      (parseHost bytes = some (Pattern.parseHost t) ∧
        ∀ rest, ReadRun bytes rest → rest <:+ bytes ∧ (rest ≠ [] → readTurn bytes rest ≠ none)) ∧
      ∀ p : Pattern, matchHost p (some bytes) = some (p.matchHost (some t)) ∧
        ∀ segments, p.host = some segments →
          ∀ turns more rest, MatchRun segments (bytes.map lowerByte) turns more rest →
          rest <:+ bytes.map lowerByte ∧ turns + more.length = segments.length ∧
            ∀ segment after, more = segment :: after →
              matchTurn segment after.head? rest ≠ none := by
  obtain rfl := decode?_eq_some_iff.mp h
  have hread := hostSegments_encode t t
  refine ⟨pathSegment_encode t, ⟨hread, fun rest hrun => ⟨hrun.suffix, fun hne hnone => ?_⟩⟩,
    fun p => ⟨?_, ?_⟩⟩
  · -- A turn that fails would be a failure of the whole loop.
    have hsome := hrun.hostSegments_isSome (by rw [hread]; rfl)
    rw [hostSegments_of_ne_nil hne, hnone] at hsome
    cases hsome
  · cases hp : p.host with
    | none => simp only [matchHost, Pattern.matchHost, hp]
    | some segments =>
      simp only [matchHost, Pattern.matchHost, hp, map_lowerByte_encode, hostMatches_encode]
  · intro segments _ turns more rest hrun
    refine ⟨hrun.suffix, hrun.length, ?_⟩
    rintro segment after rfl hnone
    have hloop := hrun.hostMatches_eq
    rw [map_lowerByte_encode, hostMatches_encode, hostMatches, hnone] at hloop
    cases hloop

/-- Every slice here has a character of two or three bytes at one end. -/
theorem reads_and_matches_umlaut :
    let segments : List HostSegment := [.label, .literal "ü.", .label]
    let p : Pattern := ⟨⟨"GET", by decide⟩, [], [], some segments⟩
    pathSegment (encode "\x7bÄ€\x7d") = some (.ok .label) ∧
      parseHost (encode "\x7bÄ\x7dü.\x7b€\x7d") = some (.ok segments) ∧
      matchHost p (some (encode "Äü.€.B")) = some true ∧
      MatchRun segments ((encode "Äü.€.B").map lowerByte) 3 [] (encode ".b") ∧
      encode ".b" <:+ (encode "Äü.€.B").map lowerByte := by
  intro segments p
  have hlabel : Pattern.pathSegment "\x7bÄ€\x7d" = .ok .label := by decide
  have hprefix : Pattern.parseHost "\x7bÄ\x7dü.\x7b€\x7d" = .ok segments := by decide +kernel
  have hhost : p.matchHost (some "Äü.€.B") = true := by decide +kernel
  have hfirst :
      MatchRun segments ((encode "Äü.€.B").map lowerByte) 1 [.literal "ü.", .label]
        (encode "ü.€.b") :=
    .turn .start (by decide +kernel)
  have hsecond : MatchRun segments ((encode "Äü.€.B").map lowerByte) 2 [.label] (encode "€.b") :=
    .turn hfirst (by decide +kernel)
  have hrun : MatchRun segments ((encode "Äü.€.B").map lowerByte) 3 [] (encode ".b") :=
    .turn hsecond (by decide +kernel)
  obtain ⟨hmatch, hruns⟩ := (reads_and_matches (decode?_encode "Äü.€.B")).2.2 p
  rw [(reads_and_matches (decode?_encode _)).1, (reads_and_matches (decode?_encode _)).2.1.1,
    hmatch, hlabel, hprefix, hhost]
  exact ⟨rfl, rfl, rfl, hrun, (hruns segments rfl 3 [] _ hrun).1⟩

end Offsets

end RouteBook.Pattern
