import RouteBook.Pattern.Basic
import RouteBook.Pattern.Error

/-! How a host must begin: reading such a prefix from text, and matching a host against it. -/

namespace RouteBook.Pattern

/-- The segments of `rest`, which is what is left of `whole`. A name in braces is a label, whatever
the name, and the text up to the next opening brace is a literal. -/
def hostSegments (whole : Text) : Text → Except PatternError (List HostSegment)
  | [] => .ok []
  | c :: rest =>
    if c = '\x7b' then
      match h : Text.cut? '\x7d' rest with
      | none => .error (.invalidHost whole .unclosedLabel)
      | some ([], _) => .error .emptyLabel
      | some (_ :: _, after) =>
        have := Text.length_of_cut? h
        (hostSegments whole after).map (.label :: ·)
    else
      let literal := c :: rest.takeWhile (· != '\x7b')
      if '\x7d' ∈ literal then .error (.invalidHost whole .unopenedLabel)
      else
        have := rest.dropWhile_sublist (· != '\x7b') |>.length_le
        (hostSegments whole (rest.dropWhile (· != '\x7b'))).map (.literal literal :: ·)
  termination_by t => t.length
  decreasing_by all_goals simp_wf; omega

/-- The segments of a host prefix. The empty text has none; `withHost` refuses it. -/
def parseHost (t : Text) : Except PatternError (List HostSegment) := hostSegments t t

/-- Whether a host in lower case begins as the segments ask. A label takes at least one
character and then as few as it can: up to the next literal, or up to the next dot or the end
if no literal follows. -/
def hostMatches : List HostSegment → Text → Bool
  | [], _ => true
  | .literal t :: segments, host =>
    match Text.after? t host with
    | some rest => hostMatches segments rest
    | none => false
  | .label :: _, [] => false
  | .label :: segments, c :: rest =>
    match segments with
    | .literal next :: _ =>
      match Text.seek? next rest with
      | some found => hostMatches segments found
      | none => false
    | _ => c ≠ '.' && hostMatches segments (rest.dropWhile (· != '.'))

/-- A host in any case. Where the pattern asks for nothing, or the request names no host, there
is nothing to compare. -/
def matchHost (p : Pattern) (host : Option Text) : Bool :=
  match p.host, host with
  | some segments, some host => hostMatches segments (Text.asciiLower host)
  | _, _ => true

end RouteBook.Pattern
