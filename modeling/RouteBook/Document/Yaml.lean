import RouteBook.Document.Yaml.Layout

/-! Reading YAML. The tokens of a text are put together to a node; a value that is left out is an
empty scalar. A text holds one document, or none at all if it has no tokens. -/

namespace RouteBook.Document.Yaml

/-- A key or value that is left out. -/
def omitted : Node := .bare []

/-- Whether the key or value that is due in block style is left out before these tokens. -/
def omitsField : List Token → Bool
  | .key :: _ | .value :: _ | .outdent :: _ => true
  | _ => false

/-- Whether the item that is due in block style is left out. -/
def omitsItem : List Token → Bool
  | .item :: _ | .outdent :: _ => true
  | _ => false

mutual

/-- A node and the tokens after it. Block collections stand in block style only. The value of a
field may be a list that is not indented. -/
def node? : Nat → Bool → Bool → List Token → Option (Node × List Token)
  | 0, _, _, _ => none
  | fuel + 1, block, field, tokens =>
    match tokens with
    | .scalar n :: rest => some (n, rest)
    | .listOpen :: rest => (flowItems? fuel rest).map fun (items, rest) => (.list items, rest)
    | .recordOpen :: rest =>
      (flowFields? fuel rest).map fun (fields, rest) => (.record fields, rest)
    | .listIndent :: rest =>
      if block then (items? fuel rest).map fun (items, rest) => (.list items, rest) else none
    | .recordIndent :: rest =>
      if block then (fields? fuel rest).map fun (fields, rest) => (.record fields, rest) else none
    | .item :: _ =>
      if field then (looseItems? fuel tokens).map fun (items, rest) => (.list items, rest) else none
    | _ => none

/-- The items of a block list up to its end. -/
def items? : Nat → List Token → Option (List Node × List Token)
  | fuel + 1, .item :: rest => do
    let (item, rest) ←
      if omitsItem rest then some (omitted, rest) else node? fuel true false rest
    let (items, rest) ← items? fuel rest
    return (item :: items, rest)
  | _, .outdent :: rest => some ([], rest)
  | _, _ => none

/-- The items of a list that is not indented. It goes on as long as items come. -/
def looseItems? : Nat → List Token → Option (List Node × List Token)
  | fuel + 1, .item :: rest => do
    let (item, rest) ←
      if omitsItem rest || omitsField rest then some (omitted, rest) else node? fuel true false rest
    let (items, rest) ← looseItems? fuel rest
    return (item :: items, rest)
  | 0, .item :: _ => none
  | _, tokens => some ([], tokens)

/-- The fields of a block record up to its end. Each begins with its key. -/
def fields? : Nat → List Token → Option (List (Node × Node) × List Token)
  | fuel + 1, .key :: rest => do
    let (key, rest) ←
      if omitsField rest then some (omitted, rest) else node? fuel true true rest
    let (value, rest) ← match rest with
      | .value :: rest =>
        if omitsField rest then some (omitted, rest) else node? fuel true true rest
      | _ => some (omitted, rest)
    let (fields, rest) ← fields? fuel rest
    return ((key, value) :: fields, rest)
  | _, .outdent :: rest => some ([], rest)
  | _, _ => none

/-- The items of a flow list up to its closing bracket; a comma may follow the last. -/
def flowItems? : Nat → List Token → Option (List Node × List Token)
  | 0, _ => none
  | _, .listClose :: rest => some ([], rest)
  | fuel + 1, tokens => do
    let (item, rest) ← match tokens with
      | .key :: rest => (pair? fuel rest).map fun (field, rest) => (.record [field], rest)
      | _ => node? fuel false false tokens
    match rest with
    | .comma :: rest => do
      let (items, rest) ← flowItems? fuel rest
      return (item :: items, rest)
    | .listClose :: rest => return ([item], rest)
    | _ => none

/-- A pair in a flow list, from what follows the token of its key. A key that is left out takes the
next token with it, so the value or the bracket behind such a key is lost. -/
def pair? : Nat → List Token → Option ((Node × Node) × List Token)
  | 0, _ => none
  | fuel + 1, tokens => do
    let (key, rest) ← match tokens with
      | .value :: rest | .comma :: rest | .listClose :: rest => some (omitted, rest)
      | _ => node? fuel false false tokens
    let (value, rest) ← match rest with
      | .value :: rest =>
        match rest with
        | .comma :: _ | .listClose :: _ => some (omitted, rest)
        | _ => node? fuel false false rest
      | _ => some (omitted, rest)
    return ((key, value), rest)

/-- The fields of a flow record up to its closing brace; a comma may follow the last. What is not
announced as a key is one without a value. -/
def flowFields? : Nat → List Token → Option (List (Node × Node) × List Token)
  | 0, _ => none
  | _, .recordClose :: rest => some ([], rest)
  | fuel + 1, tokens => do
    let (field, rest) ← match tokens with
      | .key :: rest => do
        let (key, rest) ← match rest with
          | .value :: _ | .comma :: _ | .recordClose :: _ => some (omitted, rest)
          | _ => node? fuel false false rest
        let (value, rest) ← match rest with
          | .value :: rest =>
            match rest with
            | .comma :: _ | .recordClose :: _ => some (omitted, rest)
            | _ => node? fuel false false rest
          | _ => some (omitted, rest)
        some ((key, value), rest)
      | _ => (node? fuel false false tokens).map fun (key, rest) => ((key, omitted), rest)
    match rest with
    | .comma :: rest => do
      let (fields, rest) ← flowFields? fuel rest
      return (field :: fields, rest)
    | .recordClose :: rest => return ([field], rest)
    | _ => none

end

/-- The node of a document from its first token on. Only a document with a mark
in front may be empty. -/
def document? (fuel : Nat) : List Token → Option (Node × List Token)
  | .documentStart :: rest =>
    match rest with
    | [] | .documentStart :: _ | .documentEnd :: _ => some (omitted, rest)
    | _ => node? fuel true false rest
  | tokens => node? fuel true false tokens

/-- Whether only marks behind the document are left. -/
def isOver : List Token → Bool
  | [] => true
  | .documentEnd :: rest => isOver rest
  | _ => false

/-- The document that tokens make. Of two steps that nest one takes a token. -/
def Token.document? (tokens : List Token) : Option Node :=
  match tokens with
  | [] => some omitted
  | _ => do
    let (node, rest) ← Yaml.document? (2 * tokens.length + 2) tokens
    if isOver rest then return node else none

/-- The document a text holds. -/
def read? (t : Text) : Option Node :=
  if t.all isPrintable then (Token.ofText? (joinLineEnds t)).bind Token.document? else none

end RouteBook.Document.Yaml
