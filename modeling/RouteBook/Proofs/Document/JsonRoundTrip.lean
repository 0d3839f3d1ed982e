import RouteBook.Document.Json
import RouteBook.Document.JsonWriter
import RouteBook.Proofs.Text.Pieces

/-! # Reading back what is written as JSON

A document whose scalars are all strings is written in a way that the reader undoes in three layers:
the escapes of a character are one element of a string, the text of the document is cut into the
tokens that it was written for, and the tokens are built into the document again. Each layer leaves
the rest of its input alone. -/

namespace RouteBook

/-- All scalars are strings, and so are all keys. -/
inductive Node.Quoted : Node → Prop where
  | string (t : Text) : Quoted (.string t)
  | list {items : List Node} : (∀ item ∈ items, Quoted item) → Quoted (.list items)
  | record {fields : List (Node × Node)} : (∀ field ∈ fields, ∃ key, field.1 = .string key) →
    (∀ field ∈ fields, Quoted field.2) → Quoted (.record fields)

namespace Document.Json

/-! ## The layout -/

theorem compactItems_eq_join (items : List Node) :
    compactItems items = Text.join [','] (items.map compact) := by
  induction items with
  | nil => rfl
  | cons item items ih =>
    cases items with
    | nil => exact (List.append_nil _).symm
    | cons next items =>
      calc compact item ++ ',' :: compactItems (next :: items)
        _ = compact item ++ ',' :: Text.join [','] ((next :: items).map compact) := by rw [ih]
        _ = Text.join [','] ((item :: next :: items).map compact) := (Text.join_cons_cons ..).symm

/-- A field on one line. -/
def compactField (field : Node × Node) : Text := compact field.1 ++ ':' :: compact field.2

theorem compactFields_eq_join (fields : List (Node × Node)) :
    compactFields fields = Text.join [','] (fields.map compactField) := by
  induction fields with
  | nil => rfl
  | cons field fields ih =>
    cases fields with
    | nil => exact (List.append_nil _).symm
    | cons next fields =>
      calc compactField field ++ ',' :: compactFields (next :: fields)
        _ = compactField field ++ ',' :: Text.join [','] ((next :: fields).map compactField) := by
          rw [ih]
        _ = Text.join [','] ((field :: next :: fields).map compactField) :=
          (Text.join_cons_cons ..).symm

/-! ## Strings -/

/-- Four digits are written for a control character, and they denote its number. -/
theorem exists_digits {n : Nat} (h : n < 0x20) :
    ∃ a b c d, Text.Numeral.hexadecimal 4 n = [a, b, c, d] ∧ unit? a b c d = some n := by
  have hall : ∀ n < 0x20, (Text.Numeral.hexadecimal 4 n).length = 4 ∧
      Text.Numeral.ofDigits? 16 (Text.Numeral.hexadecimal 4 n) = some n := by
    decide +kernel
  obtain ⟨hlength, hdigits⟩ := hall n h
  match Text.Numeral.hexadecimal 4 n, hlength, hdigits with
  | [a, b, c, d], _, hunit => exact ⟨a, b, c, d, rfl, hunit⟩

/-- The number of a control character is no half of a surrogate pair. -/
theorem text?_escaped {n : Nat} (h : n < 0xD800) (es : List Element) :
    text? (.escaped n :: es) = (text? es).map (Char.ofNat n :: ·) := by
  have hhigh : isHigh n = false := by simp [isHigh]; omega
  have hlow : isLow n = false := by simp [isLow]; omega
  cases es with
  | nil => simp [text?, hhigh, hlow]
  | cons e es =>
    cases e with
    | char c => simp [text?, hhigh, hlow]
    | escaped m => simp [text?, hhigh, hlow]

/-- What is written for a character is read as one element that stands for the character. -/
theorem exists_element (c : Char) :
    ∃ e : Element,
      (∀ rest, elements? (escape c ++ rest) = (elements? rest).map
        fun (es, after) => (e :: es, after)) ∧
      ∀ es, text? (e :: es) = (text? es).map (c :: ·) := by
  unfold escape
  split
  · exact ⟨.char '\x22', fun _ => rfl, fun _ => rfl⟩
  · exact ⟨.char '\\', fun _ => rfl, fun _ => rfl⟩
  · exact ⟨.char '\x08', fun _ => rfl, fun _ => rfl⟩
  · exact ⟨.char '\x0c', fun _ => rfl, fun _ => rfl⟩
  · exact ⟨.char '\n', fun _ => rfl, fun _ => rfl⟩
  · exact ⟨.char '\r', fun _ => rfl, fun _ => rfl⟩
  · exact ⟨.char '\t', fun _ => rfl, fun _ => rfl⟩
  · next hquote hslash _ _ _ _ _ =>
    split
    · next hc =>
      obtain ⟨a, b, x, d, hdigits, hunit⟩ := exists_digits hc
      refine ⟨.escaped c.toNat, fun rest => ?_, fun es => ?_⟩
      · rw [hdigits]
        show elements? ('\\' :: 'u' :: a :: b :: x :: d :: rest) = _
        rw [elements?, hunit]
        rfl
      · rw [text?_escaped (by omega), Char.ofNat_toNat]
    · next hc =>
      refine ⟨.char c, fun rest => ?_, fun _ => rfl⟩
      rw [List.singleton_append, elements?, if_neg (not_or.mpr ⟨hc, hslash⟩)]
      · exact hquote
      · intro a b x d rest' he
        exact absurd he hslash
      · exact fun _ _ he _ => hslash he

theorem exists_elements (t rest : Text) :
    ∃ es, elements? (t.flatMap escape ++ '\x22' :: rest) = some (es, rest) ∧ text? es = some t := by
  induction t with
  | nil => exact ⟨[], rfl, rfl⟩
  | cons c t ih =>
    obtain ⟨es, helements, htext⟩ := ih
    obtain ⟨e, he, hc⟩ := exists_element c
    refine ⟨e :: es, ?_, by rw [hc, htext]; rfl⟩
    rw [List.flatMap_cons, List.append_assoc, he, helements]
    rfl

theorem quote_append (t rest : Text) :
    quote t ++ rest = '\x22' :: (t.flatMap escape ++ '\x22' :: rest) := by
  simp [quote]

theorem token?_quote (t rest : Text) : token? (quote t ++ rest) = some (.string t, rest) := by
  obtain ⟨es, helements, htext⟩ := exists_elements t rest
  rw [quote_append, token?, if_neg (by decide), if_pos rfl, helements]
  simp [htext]

/-! ## Tokens -/

/-- The text is cut into these tokens, with fuel for each character or more. -/
def Lexes (t : Text) (tokens : List Token) : Prop :=
  ∀ fuel, t.length ≤ fuel → tokensWithin fuel t = some tokens

theorem lexes_nil : Lexes [] [] := fun fuel _ => by cases fuel <;> rfl

theorem isSpace_of_isMark {c : Char} (h : isMark c = true) : isSpace c = false := by
  simp only [isMark, Bool.or_eq_true, decide_eq_true_eq] at h
  rcases h with ((((rfl | rfl) | rfl) | rfl) | rfl) | rfl <;> rfl

/-- A token at the front of the text is cut off, and the rest is cut as before. -/
theorem Lexes.token {c : Char} {t rest : Text} {token : Token} {tokens : List Token}
    (h : Lexes rest tokens) (hspace : isSpace c = false)
    (htoken : token? (c :: t) = some (token, rest)) (hlt : rest.length ≤ t.length) :
    Lexes (c :: t) (token :: tokens) := by
  intro fuel hfuel
  cases fuel with
  | zero => cases hfuel
  | succ fuel =>
    have hrest := h fuel (by rw [List.length_cons] at hfuel; omega)
    rw [tokensWithin, if_neg (by simp [hspace]), htoken]
    show (tokensWithin fuel rest).map (token :: ·) = some (token :: tokens)
    rw [hrest]
    rfl

theorem Lexes.mark {rest : Text} {tokens : List Token} (h : Lexes rest tokens) {c : Char}
    (hc : isMark c = true) :
    Lexes (c :: rest) (.mark c :: tokens) :=
  h.token (isSpace_of_isMark hc) (by rw [token?, if_pos hc]) (Nat.le_refl _)

theorem Lexes.quote {rest : Text} {tokens : List Token} (h : Lexes rest tokens) (t : Text) :
    Lexes (quote t ++ rest) (.string t :: tokens) := by
  have htoken := token?_quote t rest
  rw [quote_append] at htoken ⊢
  exact h.token rfl htoken (by simp; omega)

mutual

/-- The tokens of a document. -/
def tokensOf : Node → List Token
  | .string t => [.string t]
  | .bare t => [.bare t]
  | .list items => .mark '[' :: tokensOfItems items ++ [.mark ']']
  | .record fields => .mark '\x7b' :: tokensOfFields fields ++ [.mark '\x7d']

def tokensOfItems : List Node → List Token
  | [] => []
  | [item] => tokensOf item
  | item :: items => tokensOf item ++ .mark ',' :: tokensOfItems items

def tokensOfFields : List (Node × Node) → List Token
  | [] => []
  | [(key, value)] => tokensOf key ++ .mark ':' :: tokensOf value
  | (key, value) :: fields =>
    tokensOf key ++ .mark ':' :: tokensOf value ++ .mark ',' :: tokensOfFields fields

end

/-- What is written for the document is cut into its tokens, whatever follows. -/
def LexesTo (n : Node) : Prop :=
  ∀ {rest : Text} {tokens : List Token},
    Lexes rest tokens → Lexes (compact n ++ rest) (tokensOf n ++ tokens)

theorem lexes_compactItems {items : List Node} (h : ∀ item ∈ items, LexesTo item) {rest : Text}
    {tokens : List Token} (hrest : Lexes rest tokens) :
    Lexes (compactItems items ++ rest) (tokensOfItems items ++ tokens) := by
  induction items with
  | nil => exact hrest
  | cons item items ih =>
    obtain ⟨hitem, hitems⟩ := List.forall_mem_cons.mp h
    cases items with
    | nil => exact hitem hrest
    | cons next items =>
      have hcomma : isMark ',' = true := rfl
      simpa [compactItems, tokensOfItems] using hitem ((ih hitems).mark hcomma)

theorem lexes_compactFields {fields : List (Node × Node)}
    (hkeys : ∀ field ∈ fields, ∃ key, field.1 = .string key) (h : ∀ field ∈ fields, LexesTo field.2)
    {rest : Text} {tokens : List Token} (hrest : Lexes rest tokens) :
    Lexes (compactFields fields ++ rest) (tokensOfFields fields ++ tokens) := by
  induction fields with
  | nil => exact hrest
  | cons field fields ih =>
    obtain ⟨hvalue, hvalues⟩ := List.forall_mem_cons.mp h
    obtain ⟨⟨key, hkey⟩, hkeys'⟩ := List.forall_mem_cons.mp hkeys
    obtain ⟨k, value⟩ := field
    obtain rfl : k = .string key := hkey
    have hcolon : isMark ':' = true := rfl
    have hcomma : isMark ',' = true := rfl
    cases fields with
    | nil =>
      simpa [compactFields, tokensOfFields, compact, tokensOf]
        using ((hvalue hrest).mark hcolon).quote key
    | cons next fields =>
      have hmore := (ih hkeys' hvalues).mark hcomma
      simpa [compactFields, tokensOfFields, compact, tokensOf]
        using ((hvalue hmore).mark hcolon).quote key

theorem lexes_compact {n : Node} (hn : n.Quoted) : LexesTo n := by
  induction hn with
  | string t => exact fun hrest => by simpa [compact, tokensOf] using hrest.quote t
  | list _ ih =>
    intro rest tokens hrest
    have hclose := hrest.mark (show isMark ']' = true from rfl)
    have hopen := (lexes_compactItems ih hclose).mark (show isMark '[' = true from rfl)
    simpa [compact, tokensOf] using hopen
  | record hkeys _ ih =>
    intro rest tokens hrest
    have hclose := hrest.mark (show isMark '\x7d' = true from rfl)
    have hopen := (lexes_compactFields hkeys ih hclose).mark (show isMark '\x7b' = true from rfl)
    simpa [compact, tokensOf] using hopen

/-! ## The document -/

/-- The tokens of the document are built into it, whatever follows, with three steps for each. -/
def ReadsFrom (n : Node) : Prop :=
  ∀ fuel rest, 3 * (tokensOf n).length ≤ fuel → value? fuel (tokensOf n ++ rest) = some (n, rest)

/-- No document begins with a mark that ends one. -/
theorem tokensOf_ne (n : Node) {c : Char} (hc : c = ']' ∨ c = '\x7d') (more tokens : List Token) :
    tokensOf n ++ more ≠ .mark c :: tokens := by
  intro he
  cases n with
  | string t => cases he
  | bare t => cases he
  | list items =>
    obtain rfl := Token.mark.inj (List.cons.inj he).1
    revert hc
    decide
  | record fields =>
    obtain rfl := Token.mark.inj (List.cons.inj he).1
    revert hc
    decide

theorem tokensOfItems_ne (item : Node) (items : List Node) {c : Char} (hc : c = ']' ∨ c = '\x7d')
    (more tokens : List Token) : tokensOfItems (item :: items) ++ more ≠ .mark c :: tokens := by
  cases items with
  | nil => exact tokensOf_ne item hc more tokens
  | cons next items =>
    rw [tokensOfItems, List.append_assoc]
    · exact tokensOf_ne item hc _ tokens
    · simp

theorem tokensOfFields_ne {field : Node × Node} {key : Text} (h : field.1 = .string key)
    (fields : List (Node × Node)) (c : Char) (more tokens : List Token) :
    tokensOfFields (field :: fields) ++ more ≠ .mark c :: tokens := by
  obtain ⟨k, value⟩ := field
  obtain rfl : k = .string key := h
  intro he
  cases fields with
  | nil => cases he
  | cons next fields => cases he

theorem items?_tokensOfItems {items : List Node} (hne : items ≠ [])
    (h : ∀ item ∈ items, ReadsFrom item) {fuel : Nat}
    (hfuel : 3 * (tokensOfItems items).length + 1 ≤ fuel) (rest : List Token) :
    items? fuel (tokensOfItems items ++ .mark ']' :: rest) = some (items, rest) := by
  induction items generalizing fuel with
  | nil => exact absurd rfl hne
  | cons item items ih =>
    obtain ⟨hitem, hitems⟩ := List.forall_mem_cons.mp h
    cases fuel with
    | zero => cases hfuel
    | succ fuel =>
      cases items with
      | nil =>
        rw [tokensOfItems] at hfuel ⊢
        rw [items?, hitem fuel (.mark ']' :: rest) (by omega)]
        rfl
      | cons next items =>
        have htokens : tokensOfItems (item :: next :: items) =
            tokensOf item ++ .mark ',' :: tokensOfItems (next :: items) := by simp [tokensOfItems]
        rw [htokens, List.length_append, List.length_cons] at hfuel
        have hrest :=
          ih (by simp) hitems (show 3 * (tokensOfItems (next :: items)).length + 1 ≤ fuel by omega)
        rw [htokens, List.append_assoc, items?, hitem fuel _ (by omega)]
        show (items? fuel (tokensOfItems (next :: items) ++ .mark ']' :: rest)).map _ = _
        rw [hrest]
        rfl

theorem fields?_tokensOfFields {fields : List (Node × Node)} (hne : fields ≠ [])
    (hkeys : ∀ field ∈ fields, ∃ key, field.1 = .string key)
    (h : ∀ field ∈ fields, ReadsFrom field.2) {fuel : Nat}
    (hfuel : 3 * (tokensOfFields fields).length + 1 ≤ fuel) (rest : List Token) :
    fields? fuel (tokensOfFields fields ++ .mark '\x7d' :: rest) = some (fields, rest) := by
  induction fields generalizing fuel with
  | nil => exact absurd rfl hne
  | cons field fields ih =>
    obtain ⟨hvalue, hvalues⟩ := List.forall_mem_cons.mp h
    obtain ⟨⟨key, hkey⟩, hkeys'⟩ := List.forall_mem_cons.mp hkeys
    obtain ⟨k, value⟩ := field
    obtain rfl : k = .string key := hkey
    have hfield {fuel : Nat} (hfuel : 3 * (tokensOf value).length ≤ fuel) (more : List Token) :
        field? (fuel + 1) (.string key :: .mark ':' :: (tokensOf value ++ more)) =
          some ((.string key, value), more) := by
      rw [field?, hvalue fuel more hfuel]
      rfl
    cases fields with
    | nil =>
      have htokens : tokensOfFields [(.string key, value)] =
          .string key :: .mark ':' :: tokensOf value := rfl
      rw [htokens, List.length_cons, List.length_cons] at hfuel
      obtain ⟨fuel, rfl⟩ : ∃ f, fuel = f + 2 := ⟨fuel - 2, by omega⟩
      rw [htokens, List.cons_append, List.cons_append, fields?, hfield (by omega)]
      rfl
    | cons next fields =>
      have htokens : tokensOfFields ((.string key, value) :: next :: fields) =
          .string key :: .mark ':' ::
            (tokensOf value ++ .mark ',' :: tokensOfFields (next :: fields)) := by
        simp [tokensOfFields, tokensOf]
      rw [htokens, List.length_cons, List.length_cons, List.length_append, List.length_cons]
        at hfuel
      obtain ⟨fuel, rfl⟩ : ∃ f, fuel = f + 2 := ⟨fuel - 2, by omega⟩
      have hrest := ih (by simp) hkeys' hvalues
        (show 3 * (tokensOfFields (next :: fields)).length + 1 ≤ fuel + 1 by omega)
      rw [htokens, List.cons_append, List.cons_append, List.append_assoc, fields?,
        hfield (by omega)]
      show (fields? (fuel + 1) (tokensOfFields (next :: fields) ++ .mark '\x7d' :: rest)).map _ = _
      rw [hrest]
      rfl

theorem value?_tokensOf {n : Node} (hn : n.Quoted) : ReadsFrom n := by
  induction hn with
  | string t =>
    intro fuel rest hfuel
    cases fuel with
    | zero => cases hfuel
    | succ fuel => rfl
  | @list items _ ih =>
    intro fuel rest hfuel
    cases fuel with
    | zero => cases hfuel
    | succ fuel =>
      cases items with
      | nil => rfl
      | cons item items =>
        have htokens : tokensOf (.list (item :: items)) ++ rest =
            .mark '[' :: (tokensOfItems (item :: items) ++ .mark ']' :: rest) := by simp [tokensOf]
        have hlength : (tokensOf (.list (item :: items))).length =
            (tokensOfItems (item :: items)).length + 2 := by
          simp [tokensOf]
        rw [htokens, value?, if_pos rfl, items?_tokensOfItems (by simp) ih (by omega)]
        · rfl
        · exact fun tokens => tokensOfItems_ne item items (.inl rfl) _ tokens
        · exact fun tokens => tokensOfItems_ne item items (.inr rfl) _ tokens
  | @record fields hkeys _ ih =>
    intro fuel rest hfuel
    cases fuel with
    | zero => cases hfuel
    | succ fuel =>
      cases fields with
      | nil => rfl
      | cons field fields =>
        obtain ⟨⟨key, hkey⟩, _⟩ := List.forall_mem_cons.mp hkeys
        have htokens : tokensOf (.record (field :: fields)) ++ rest =
            .mark '\x7b' :: (tokensOfFields (field :: fields) ++ .mark '\x7d' :: rest) := by
              simp [tokensOf]
        have hlength :
            (tokensOf (.record (field :: fields))).length =
              (tokensOfFields (field :: fields)).length + 2 := by
          simp [tokensOf]
        rw [htokens, value?, if_neg (by decide), if_pos rfl,
          fields?_tokensOfFields (by simp) hkeys ih (by omega)]
        · rfl
        · exact fun tokens => tokensOfFields_ne hkey fields _ _ tokens
        · exact fun tokens => tokensOfFields_ne hkey fields _ _ tokens

/-- A text that is cut into the tokens of a document is read as this document. -/
theorem read?_of_lexes {t : Text} {n : Node} (hn : n.Quoted) (hlex : Lexes t (tokensOf n)) :
    read? t = some n := by
  have hvalue := value?_tokensOf hn (3 * (tokensOf n).length + 1) [] (by omega)
  rw [List.append_nil] at hvalue
  rw [read?, tokens?, hlex _ (Nat.le_refl _), Option.bind_some, hvalue]

theorem read?_compact {n : Node} (hn : n.Quoted) : read? (compact n) = some n := by
  have hlex := lexes_compact hn lexes_nil
  rw [List.append_nil, List.append_nil] at hlex
  exact read?_of_lexes hn hlex

end Document.Json

end RouteBook
