import RouteBook.Text.Basic

/-! Why a pattern is refused. -/

namespace RouteBook

inductive HostFault where
  | empty
  | emptyLiteral
  | adjacentLabels
  | unclosedLabel
  | unopenedLabel
  deriving DecidableEq

def HostFault.reason : HostFault → Text
  | empty => "prefix is empty"
  | emptyLiteral => "empty literal"
  | adjacentLabels => "adjacent labels"
  | unclosedLabel => "unclosed label"
  | unopenedLabel => "unopened label"

inductive PatternError where
  | noLeadingSlash
  | trailingQuestionMark
  | emptyPathSegment
  | fragment
  | dotSegment
  | unopenedLabel (segment : Text)
  | unclosedLabel (segment : Text)
  | emptyLabel
  | greedyNotLast
  | multipleGreedy
  | emptyQueryKey
  | duplicateQueryKey (key : Text)
  | malformedEscape (segment : Text)
  | unsupportedMethod (method : Text)
  | invalidHost (text : Text) (fault : HostFault)
  deriving DecidableEq

def PatternError.message : PatternError → Text
  | noLeadingSlash => "uri pattern MUST start with \"/\""
  | trailingQuestionMark => "uri pattern MUST NOT end with \"?\""
  | emptyPathSegment =>
    "uri pattern MUST NOT contain empty path segments (a trailing forward slash creates one)"
  | fragment => "uri pattern MUST NOT contain a fragment"
  | dotSegment => "uri pattern MUST NOT contain `.` or `..` segments"
  | unopenedLabel segment =>
    "uri pattern contains path segment `" ++ segment
      ++ "` ending with `\x7d`, but the label's opening `\x7b` was not found"
  | unclosedLabel segment =>
    "uri pattern contains path segment `" ++ segment
      ++ "` starting with `\x7b`, but the label's closing `\x7d` was not found"
  | emptyLabel => "uri pattern contains a label without a name"
  | greedyNotLast => "greedy label must be the last path segment"
  | multipleGreedy => "uri pattern contains more than one greedy label"
  | emptyQueryKey => "query requirement has an empty key"
  | duplicateQueryKey key => "query key `" ++ key ++ "` is required more than once"
  | malformedEscape segment =>
    "path segment `" ++ segment ++ "` contains a malformed percent-encoding"
  | unsupportedMethod method => "HTTP method `" ++ method ++ "` is not supported"
  | invalidHost text fault => "invalid host prefix `" ++ text ++ "`: " ++ fault.reason

end RouteBook
