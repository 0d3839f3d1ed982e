import RouteBook.Proofs.Pattern.Host
import RouteBook.Proofs.Text.Pieces

/-! # The grammar of host prefixes

A host prefix is a row of pieces: plain text without braces, or a name in braces. The reader accepts
exactly these texts. A text is cut into pieces in one way only, if no two plain pieces stand side by
side, and what is read are the segments of this cut. Names are forgotten, so a prefix is shown with
other names, and it is read from there again. -/

namespace RouteBook

/-- A piece of a host prefix, as it is written. -/
inductive HostPiece where
  | plain (t : Text)
  | named (name : Text)

namespace HostPiece

def text : HostPiece → Text
  | plain t => t
  | named name => '\x7b' :: (name ++ ['\x7d'])

def segment : HostPiece → HostSegment
  | plain t => .literal t
  | named _ => .label

def isPlain : HostPiece → Bool
  | plain _ => true
  | named _ => false

/-- Plain text holds no brace; a name holds no closing brace, since the first one ends it. -/
inductive WellFormed : HostPiece → Prop where
  | plain {t : Text} : t ≠ [] → '\x7b' ∉ t → '\x7d' ∉ t → WellFormed (plain t)
  | named {name : Text} : name ≠ [] → '\x7d' ∉ name → WellFormed (named name)

theorem WellFormed.text_ne_nil {piece : HostPiece} (h : piece.WellFormed) : piece.text ≠ [] := by
  cases h with
  | plain ht _ _ => exact ht
  | named _ _ => exact List.cons_ne_nil _ _

/-- The text that the pieces make up. -/
def joined (pieces : List HostPiece) : Text := pieces.flatMap text

@[simp] theorem joined_nil : joined [] = [] := rfl

@[simp] theorem joined_plain (t : Text) (pieces : List HostPiece) :
    joined (plain t :: pieces) = t ++ joined pieces := rfl

@[simp] theorem joined_named (name : Text) (pieces : List HostPiece) :
    joined (named name :: pieces) = '\x7b' :: (name ++ '\x7d' :: joined pieces) := by
  simp [joined, text]

/-- No two plain pieces stand side by side. -/
def Apart (pieces : List HostPiece) : Prop :=
  pieces.IsChain fun a b => a.isPlain = true → b.isPlain = false

end HostPiece

namespace Pattern

open HostPiece

/-- The text is cut into well-formed pieces, and no cut goes through a plain one. -/
structure Cut (t : Text) (pieces : List HostPiece) : Prop where
  wellFormed : ∀ piece ∈ pieces, piece.WellFormed
  apart : Apart pieces
  eq : t = joined pieces

variable {whole t : Text} {pieces : List HostPiece} {segments : List HostSegment}

/-! ## Reading one piece -/

theorem hostSegments_named {name : Text} (hne : name ≠ []) (hname : '\x7d' ∉ name)
    (whole t : Text) :
    hostSegments whole ('\x7b' :: (name ++ '\x7d' :: t)) =
      (hostSegments whole t).map (.label :: ·) := by
  obtain ⟨c, name, rfl⟩ := List.exists_cons_of_ne_nil hne
  have hcut := Text.cut?_append hname t
  rw [hostSegments, if_pos rfl]
  split
  · next h => rw [hcut] at h; cases h
  · next h => rw [hcut] at h; cases h
  · next h => rw [hcut] at h; cases h; rfl

/-- Whether nothing or a name stands here, and no plain text. -/
def EndsPlain (t : Text) : Prop := t = [] ∨ t.head? = some '\x7b'

theorem takeWhile_of_endsPlain {u : Text} (hopen : '\x7b' ∉ u) (ht : EndsPlain t) :
    (u ++ t).takeWhile (· != '\x7b') = u ∧ (u ++ t).dropWhile (· != '\x7b') = t := by
  have hu : ∀ d ∈ u, (d != '\x7b') = true := fun d hd => bne_iff_ne.mpr fun he => hopen (he ▸ hd)
  rw [List.takeWhile_append_of_pos hu, List.dropWhile_append_of_pos hu]
  cases t with
  | nil => simp
  | cons d t =>
    obtain rfl : d = '\x7b' := by simpa [EndsPlain] using ht
    simp

theorem endsPlain_dropWhile (t : Text) : EndsPlain (t.dropWhile (· != '\x7b')) := by
  have h := List.head?_dropWhile_not (· != '\x7b') t
  cases hd : t.dropWhile (· != '\x7b') with
  | nil => exact .inl rfl
  | cons d rest =>
    rw [hd] at h
    exact .inr (by simpa using h)

theorem hostSegments_plain {u : Text} (hne : u ≠ []) (hopen : '\x7b' ∉ u) (hclose : '\x7d' ∉ u)
    (ht : EndsPlain t) (whole : Text) :
    hostSegments whole (u ++ t) = (hostSegments whole t).map (.literal u :: ·) := by
  obtain ⟨c, u, rfl⟩ := List.exists_cons_of_ne_nil hne
  rw [List.mem_cons, not_or] at hopen
  obtain ⟨htake, hdrop⟩ := takeWhile_of_endsPlain hopen.2 ht
  simp only [List.cons_append, hostSegments, if_neg (Ne.symm hopen.1), htake, hdrop, if_neg hclose]

/-- Plain text before what is accepted is accepted, also if there is none. -/
theorem exists_hostSegments_append {u : Text} (hopen : '\x7b' ∉ u) (hclose : '\x7d' ∉ u)
    (ht : EndsPlain t) (h : ∃ segments, hostSegments whole t = .ok segments) :
    ∃ segments, hostSegments whole (u ++ t) = .ok segments := by
  obtain ⟨segments, hs⟩ := h
  by_cases hu : u = []
  · exact ⟨segments, by rw [hu, List.nil_append, hs]⟩
  · exact ⟨.literal u :: segments, by rw [hostSegments_plain hu hopen hclose ht, hs]; rfl⟩

/-! ## Any pieces are accepted -/

/-- Plain pieces side by side are read as one, so there may be more plain text before the pieces. -/
theorem exists_hostSegments (h : ∀ piece ∈ pieces, piece.WellFormed) (whole : Text) {u : Text}
    (hopen : '\x7b' ∉ u) (hclose : '\x7d' ∉ u) :
    ∃ segments, hostSegments whole (u ++ joined pieces) = .ok segments := by
  induction pieces generalizing u with
  | nil => exact exists_hostSegments_append hopen hclose (.inl rfl) ⟨[], hostSegments.eq_1 whole⟩
  | cons piece pieces ih =>
    obtain ⟨hpiece, hpieces⟩ := List.forall_mem_cons.mp h
    cases hpiece with
    | @plain t _ hopen' hclose' =>
      rw [joined_plain, ← List.append_assoc]
      exact ih hpieces (by simp [hopen, hopen']) (by simp [hclose, hclose'])
    | @named name hne hname =>
      obtain ⟨segments, hs⟩ := ih hpieces (u := []) (by simp) (by simp)
      rw [List.nil_append] at hs
      rw [joined_named]
      refine exists_hostSegments_append hopen hclose (.inr rfl) ⟨.label :: segments, ?_⟩
      rw [hostSegments_named hne hname, hs]
      rfl

/-! ## What is read is the cut -/

/-- Plain text goes on up to the next name exactly if the next piece is not plain. -/
theorem apart_plain_iff {u : Text} (h : ∀ piece ∈ pieces, piece.WellFormed) :
    Apart (.plain u :: pieces) ↔ EndsPlain (joined pieces) ∧ Apart pieces := by
  cases pieces with
  | nil => simp [Apart, EndsPlain]
  | cons piece pieces =>
    rw [Apart, List.isChain_cons_cons]
    refine and_congr_left fun _ => ?_
    cases h piece List.mem_cons_self with
    | @plain t hne hopen _ =>
      obtain ⟨c, t, rfl⟩ := List.exists_cons_of_ne_nil hne
      rw [List.mem_cons, not_or] at hopen
      simpa [isPlain, EndsPlain] using Ne.symm hopen.1
    | named _ _ => simp [isPlain, EndsPlain]

theorem hostSegments_joined (h : ∀ piece ∈ pieces, piece.WellFormed) (ha : Apart pieces)
    (whole : Text) :
    hostSegments whole (joined pieces) = .ok (pieces.map segment) := by
  induction pieces with
  | nil => exact hostSegments.eq_1 whole
  | cons piece pieces ih =>
    obtain ⟨hpiece, hpieces⟩ := List.forall_mem_cons.mp h
    cases hpiece with
    | plain hne hopen hclose =>
      obtain ⟨hends, hapart⟩ := (apart_plain_iff hpieces).mp ha
      rw [joined_plain, hostSegments_plain hne hopen hclose hends, ih hpieces hapart]
      rfl
    | named hne hname =>
      rw [joined_named, hostSegments_named hne hname, ih hpieces (List.isChain_cons.mp ha).2]
      rfl

theorem exists_cut_of_hostSegments (h : hostSegments whole t = .ok segments) :
    ∃ pieces, Cut t pieces ∧ segments = pieces.map segment := by
  fun_induction hostSegments whole t generalizing segments with
  | case1 =>
    cases h
    exact ⟨[], ⟨List.forall_mem_nil _, .nil, rfl⟩, rfl⟩
  | case2 => cases h
  | case3 => cases h
  | case4 rest d name after hcut _ ih =>
    obtain ⟨found, hf, rfl⟩ := exists_of_map_eq_ok h
    obtain ⟨pieces, hpieces, rfl⟩ := ih hf
    obtain ⟨rfl, hname⟩ := Text.eq_append_of_cut? hcut
    refine ⟨.named (d :: name) :: pieces, ⟨?_, ?_, ?_⟩, rfl⟩
    · exact List.forall_mem_cons.mpr ⟨.named (List.cons_ne_nil _ _) hname, hpieces.wellFormed⟩
    · exact List.isChain_cons.mpr ⟨fun _ _ hp => (by cases hp), hpieces.apart⟩
    · rw [joined_named, hpieces.eq]
  | case5 => cases h
  | case6 c rest hc literal hclose =>
    rename_i ih
    obtain ⟨found, hf, rfl⟩ := exists_of_map_eq_ok h
    obtain ⟨pieces, hpieces, rfl⟩ := ih hf
    have hopen : '\x7b' ∉ literal := by
      rw [List.mem_cons, not_or]
      exact ⟨Ne.symm hc, fun hm => by simpa using List.mem_takeWhile_imp hm⟩
    have hends : EndsPlain (joined pieces) := hpieces.eq ▸ endsPlain_dropWhile rest
    refine ⟨.plain literal :: pieces,
      ⟨?_, (apart_plain_iff hpieces.wellFormed).mpr ⟨hends, hpieces.apart⟩, ?_⟩, rfl⟩
    · exact List.forall_mem_cons.mpr ⟨.plain (List.cons_ne_nil _ _) hopen hclose,
        hpieces.wellFormed⟩
    · rw [joined_plain, ← hpieces.eq, List.cons_append, List.takeWhile_append_dropWhile]

theorem parseHost_eq_ok_iff :
    parseHost t = .ok segments ↔ ∃ pieces, Cut t pieces ∧ segments = pieces.map segment := by
  refine ⟨exists_cut_of_hostSegments, fun ⟨pieces, hcut, hs⟩ => ?_⟩
  rw [hs, hcut.eq]
  exact hostSegments_joined hcut.wellFormed hcut.apart _

/-- The segments tell how long each plain piece is, and a name ends at the first closing brace. -/
theorem eq_of_joined {others : List HostPiece} (h : ∀ piece ∈ pieces, piece.WellFormed)
    (ho : ∀ piece ∈ others, piece.WellFormed) (hs : pieces.map segment = others.map segment)
    (hj : joined pieces = joined others) : pieces = others := by
  induction pieces generalizing others with
  | nil => exact (List.map_eq_nil_iff.mp hs.symm).symm
  | cons piece pieces ih =>
    obtain ⟨other, others, rfl⟩ :=
      List.exists_cons_of_ne_nil (l := others) (by rintro rfl; cases hs)
    obtain ⟨hpiece, hpieces⟩ := List.forall_mem_cons.mp h
    obtain ⟨hother, hothers⟩ := List.forall_mem_cons.mp ho
    rw [List.map_cons, List.map_cons, List.cons.injEq] at hs
    cases hpiece with
    | plain =>
      cases hother with
      | plain =>
        obtain rfl := HostSegment.literal.inj hs.1
        rw [ih hpieces hothers hs.2 (List.append_cancel_left hj)]
      | named => cases hs.1
    | named _ hname =>
      cases hother with
      | plain => cases hs.1
      | named _ hname' =>
        rw [joined_named, joined_named, List.cons.injEq] at hj
        obtain ⟨rfl, hrest⟩ := Text.eq_of_append_sep hname hname' hj.2
        rw [ih hpieces hothers hs.2 hrest]

theorem Cut.unique {others : List HostPiece} (h : Cut t pieces) (ho : Cut t others) :
    pieces = others := by
  have hread := parseHost_eq_ok_iff.mpr ⟨pieces, h, rfl⟩
  rw [parseHost_eq_ok_iff.mpr ⟨others, ho, rfl⟩] at hread
  exact eq_of_joined h.wellFormed ho.wellFormed (Except.ok.inj hread).symm (h.eq.symm.trans ho.eq)

theorem Cut.length_le (h : Cut t pieces) : pieces.length ≤ t.length := by
  obtain ⟨hpieces, -, rfl⟩ := h
  induction pieces with
  | nil => exact Nat.zero_le _
  | cons piece pieces ih =>
    obtain ⟨hpiece, hpieces⟩ := List.forall_mem_cons.mp hpieces
    have hpos := List.length_pos_iff.mpr hpiece.text_ne_nil
    have hjoined : joined (piece :: pieces) = piece.text ++ joined pieces := rfl
    rw [hjoined, List.length_append, List.length_cons]
    have := ih hpieces
    omega

/-! ## Showing a prefix -/

/-- How a segment is shown. -/
def shownPiece : HostSegment → HostPiece
  | .literal t => .plain t
  | .label => .named "label"

/-- A prefix is shown as pieces that it can be read from. -/
structure Readable (segments : List HostSegment) : Prop where
  wellFormed : ∀ segment ∈ segments, (shownPiece segment).WellFormed
  apart : Apart (segments.map shownPiece)

theorem hostText_eq_joined (segments : List HostSegment) :
    hostText segments = joined (segments.map shownPiece) := by
  rw [joined, List.flatMap_map]
  refine congrArg (List.flatMap · segments) (funext fun s => ?_)
  cases s <;> rfl

theorem Readable.parseHost_hostText (h : Readable segments) :
    parseHost (hostText segments) = .ok segments := by
  refine parseHost_eq_ok_iff.mpr ⟨segments.map shownPiece,
    ⟨?_, h.apart, hostText_eq_joined segments⟩, ?_⟩
  · exact List.forall_mem_map.mpr h.wellFormed
  · rw [List.map_map]
    refine (List.map_id segments).symm.trans (List.map_congr_left fun s _ => ?_)
    cases s <;> rfl

theorem apart_map {α : Type} {xs : List α} {f g : α → HostPiece} (h : Apart (xs.map f))
    (hplain : ∀ x, (g x).isPlain = (f x).isPlain) : Apart (xs.map g) := by
  rw [Apart, List.isChain_map] at h ⊢
  simpa only [hplain] using h

theorem Cut.readable (h : Cut t pieces) : Readable (pieces.map segment) := by
  constructor
  · refine List.forall_mem_map.mpr fun piece hp => ?_
    cases h.wellFormed piece hp with
    | plain hne hopen hclose => exact .plain hne hopen hclose
    | named _ _ => exact .named (by decide) (by decide)
  · rw [List.map_map]
    refine apart_map (f := id) (by rw [List.map_id]; exact h.apart) fun piece => ?_
    cases piece <;> rfl

/-- Literals in lower case are read as well as the ones that were written. -/
theorem Readable.lower (h : Readable segments) : Readable (segments.map HostSegment.lower) := by
  constructor
  · refine List.forall_mem_map.mpr fun s hs => ?_
    have hwell := h.wellFormed s hs
    cases s with
    | label => exact hwell
    | literal t =>
      cases hwell with
      | plain hne hopen hclose =>
        refine .plain (by simpa [Text.asciiLower] using hne) (fun hm => hopen ?_)
          (fun hm => hclose ?_)
        · exact Text.mem_of_mem_asciiLower rfl hm
        · exact Text.mem_of_mem_asciiLower rfl hm
  · rw [List.map_map]
    refine apart_map h.apart fun s => ?_
    cases s <;> rfl

theorem Readable.literal_ne_nil (h : Readable segments) {u : Text} (hu : .literal u ∈ segments) :
    u ≠ [] := by
  cases h.wellFormed _ hu with
  | plain hne _ _ => exact hne

theorem text_of_host {p : Pattern} (h : p.host = some segments) :
    p.text = p.method.text ++ ' ' :: '[' ::
      (hostText segments ++ ']' :: (pathText p.path ++ queryText p.query)) := by
  simp [text, h]

/-- A text is a host prefix exactly if well-formed pieces make it up. What is read are the
segments of its only cut without plain pieces side by side, one or more characters each.
They are read again from the way they are shown, alone or within the line of a pattern that
stores them in lower case. -/
theorem parseHost_grammar (t : Text) :
    ((∃ segments, parseHost t = .ok segments) ↔
        ∃ pieces : List HostPiece, (∀ piece ∈ pieces, piece.WellFormed) ∧ t = joined pieces) ∧
      (∀ segments, parseHost t = .ok segments ↔
        ∃ pieces, Cut t pieces ∧ segments = pieces.map segment) ∧
      (∀ pieces others, Cut t pieces → Cut t others → pieces = others) ∧
      ∀ segments, parseHost t = .ok segments →
        segments.length ≤ t.length ∧ (∀ u, .literal u ∈ segments → u ≠ []) ∧ Separated segments ∧
          parseHost (hostText segments) = .ok segments ∧
          ∀ p q : Pattern, p.withHost segments = .ok q → ∃ stored, q.host = some stored ∧
            q.text = q.method.text ++ ' ' :: '[' ::
              (hostText stored ++ ']' :: (pathText q.path ++ queryText q.query)) ∧
            parseHost (hostText stored) = .ok stored := by
  refine ⟨⟨?_, ?_⟩, fun segments => parseHost_eq_ok_iff, fun pieces others => Cut.unique,
    fun segments h => ?_⟩
  · rintro ⟨segments, h⟩
    obtain ⟨pieces, hcut, _⟩ := parseHost_eq_ok_iff.mp h
    exact ⟨pieces, hcut.wellFormed, hcut.eq⟩
  · rintro ⟨pieces, hwell, rfl⟩
    exact exists_hostSegments hwell _ (u := []) (by simp) (by simp)
  · obtain ⟨pieces, hcut, rfl⟩ := parseHost_eq_ok_iff.mp h
    have hread := hcut.readable
    refine ⟨by rw [List.length_map]; exact hcut.length_le, fun u => hread.literal_ne_nil,
      (separated_of_hostSegments h).1, hread.parseHost_hostText, fun p q hq => ?_⟩
    obtain ⟨_, _, rfl⟩ := withHost_eq_ok_iff.mp hq
    exact ⟨_, rfl, text_of_host rfl, hread.lower.parseHost_hostText⟩

/-- A name that holds an opening brace, and capitals that are stored as small letters. -/
theorem parseHost_grammar_capitals :
    let p : Pattern := ⟨⟨"GET", by decide⟩, [], [], none⟩
    let q : Pattern := { p with host := some [.label, .literal "-eu.", .label] }
    parseHost "\x7bb\x7b\x7d-EU.\x7br\x7d" = .ok [.label, .literal "-EU.", .label] ∧
      (∃ pieces : List HostPiece, (∀ piece ∈ pieces, piece.WellFormed) ∧
        "\x7bb\x7b\x7d-EU.\x7br\x7d".toList = joined pieces) ∧
      parseHost (hostText [.label, .literal "-EU.", .label]) =
        .ok [.label, .literal "-EU.", .label] ∧
      p.withHost [.label, .literal "-EU.", .label] = .ok q ∧
      ∃ stored, q.host = some stored ∧ parseHost (hostText stored) = .ok stored := by
  intro p q
  have hread : parseHost "\x7bb\x7b\x7d-EU.\x7br\x7d" = .ok [.label, .literal "-EU.", .label] := by
    decide +kernel
  obtain ⟨hgrammar, _, _, hsegments⟩ := parseHost_grammar "\x7bb\x7b\x7d-EU.\x7br\x7d"
  obtain ⟨_, _, _, hshown, hpattern⟩ := hsegments _ hread
  obtain ⟨stored, hhost, _, hstored⟩ := hpattern p q rfl
  exact ⟨hread, hgrammar.mp ⟨_, hread⟩, hshown, rfl, stored, hhost, hstored⟩

end Pattern

end RouteBook
