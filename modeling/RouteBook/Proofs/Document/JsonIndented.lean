import RouteBook.Proofs.Document.JsonRoundTrip

/-! # Reading back what is written over several lines

The tokens of a document are the same on one line and over several: what is written between them are
spaces and line breaks, which are dropped when the text is cut. So the layout says nothing, and a
document that is written with it is read as itself. -/

namespace RouteBook.Document.Json

variable {rest : Text} {tokens : List Token}

theorem Lexes.space (h : Lexes rest tokens) {c : Char} (hc : isSpace c = true) :
    Lexes (c :: rest) tokens := by
  intro fuel hfuel
  cases fuel with
  | zero => cases hfuel
  | succ fuel =>
    rw [tokensWithin, if_pos hc]
    exact h fuel (by rw [List.length_cons] at hfuel; omega)

theorem Lexes.spaces (h : Lexes rest tokens) {t : Text} (ht : ∀ c ∈ t, isSpace c = true) :
    Lexes (t ++ rest) tokens := by
  induction t with
  | nil => exact h
  | cons c t ih =>
    obtain ⟨hc, ht⟩ := List.forall_mem_cons.mp ht
    exact (ih ht).space hc

theorem isSpace_of_mem_line {depth : Nat} {c : Char} (h : c ∈ line depth) : isSpace c = true := by
  rcases List.mem_cons.mp h with rfl | h
  · rfl
  · rw [(List.mem_replicate.mp h).2]
    rfl

theorem Lexes.line (h : Lexes rest tokens) (depth : Nat) : Lexes (line depth ++ rest) tokens :=
  h.spaces fun _ hc => isSpace_of_mem_line hc

/-- What is written for the document at any depth is cut into its tokens, whatever follows. -/
def LexesIndented (n : Node) : Prop :=
  ∀ {rest : Text} {tokens : List Token} (depth : Nat),
    Lexes rest tokens → Lexes (indented depth n ++ rest) (tokensOf n ++ tokens)

theorem lexes_indentedItems {items : List Node} (h : ∀ item ∈ items, LexesIndented item)
    (depth : Nat) (hrest : Lexes rest tokens) :
    Lexes (indentedItems depth items ++ rest) (tokensOfItems items ++ tokens) := by
  induction items with
  | nil => exact hrest
  | cons item items ih =>
    obtain ⟨hitem, hitems⟩ := List.forall_mem_cons.mp h
    cases items with
    | nil => simpa [indentedItems, tokensOfItems] using (hitem depth hrest).line depth
    | cons next items =>
      have hcomma : isMark ',' = true := rfl
      simpa [indentedItems, tokensOfItems] using (hitem depth ((ih hitems).mark hcomma)).line depth

theorem lexes_indentedFields {fields : List (Node × Node)}
    (hkeys : ∀ field ∈ fields, ∃ key, field.1 = .string key)
    (h : ∀ field ∈ fields, LexesIndented field.2) (depth : Nat) (hrest : Lexes rest tokens) :
    Lexes (indentedFields depth fields ++ rest) (tokensOfFields fields ++ tokens) := by
  induction fields with
  | nil => exact hrest
  | cons field fields ih =>
    obtain ⟨hvalue, hvalues⟩ := List.forall_mem_cons.mp h
    obtain ⟨⟨key, hkey⟩, hkeys'⟩ := List.forall_mem_cons.mp hkeys
    obtain ⟨k, value⟩ := field
    obtain rfl : k = .string key := hkey
    have hcomma : isMark ',' = true := rfl
    -- A colon and a space stand between the key and the value.
    have hfield {after : Text} {more : List Token} (hmore : Lexes after more) :
        Lexes (line depth ++ (quote key ++ (':' :: ' ' :: (indented depth value ++ after))))
          (.string key :: .mark ':' :: (tokensOf value ++ more)) :=
      ((((hvalue depth hmore).space rfl).mark rfl).quote key).line depth
    cases fields with
    | nil => simpa [indentedFields, tokensOfFields, indented, tokensOf] using hfield hrest
    | cons next fields =>
      simpa [indentedFields, tokensOfFields, indented, tokensOf]
        using hfield ((ih hkeys' hvalues).mark hcomma)

theorem lexes_indented {n : Node} (hn : n.Quoted) : LexesIndented n := by
  induction hn with
  | string t => exact fun depth hrest => by simpa [indented, tokensOf] using hrest.quote t
  | @list items _ ih =>
    intro rest tokens depth hrest
    have hclose := hrest.mark (show isMark ']' = true from rfl)
    have hopen {after : Text} {more : List Token} (h : Lexes after more) :
        Lexes ('[' :: after) (.mark '[' :: more) :=
      h.mark rfl
    cases items with
    | nil => simpa [indented, tokensOf, tokensOfItems] using hopen hclose
    | cons item items =>
      simpa [indented, tokensOf]
        using hopen (lexes_indentedItems ih (depth + 1) (hclose.line depth))
  | @record fields hkeys _ ih =>
    intro rest tokens depth hrest
    have hclose := hrest.mark (show isMark '\x7d' = true from rfl)
    have hopen {after : Text} {more : List Token} (h : Lexes after more) :
        Lexes ('\x7b' :: after) (.mark '\x7b' :: more) := h.mark rfl
    cases fields with
    | nil => simpa [indented, tokensOf, tokensOfFields] using hopen hclose
    | cons field fields =>
      simpa [indented, tokensOf]
        using hopen (lexes_indentedFields hkeys ih (depth + 1) (hclose.line depth))

theorem read?_pretty {n : Node} (hn : n.Quoted) : read? (pretty n) = some n := by
  have hlex := lexes_indented hn 0 lexes_nil
  rw [List.append_nil, List.append_nil] at hlex
  exact read?_of_lexes hn hlex

end RouteBook.Document.Json
