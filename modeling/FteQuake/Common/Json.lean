import FteQuake.Common.Infobuf

/-!
# The JSON parser

`JSON_Parse` of `json.c`. A pointer into the text is the text from there on, and the position of
the parser is the text it has not read yet: `ctx->pos` is the size of the text less the length of
that rest. The bytes between two pointers are `between`.

A node is attached to its parent when it is made and taken off again when it is destroyed. Nothing
looks at the parent in between, so here a parser returns its node and the caller attaches it. The
children of an object are its sibling list, those of an array the filled slots of `array`, the
child at index `i` having the decimal digits of `i` as its name (arrays stay below the 2^31
elements from which `atoi` overflows).

The recursive functions take a bound on their depth and fail at the end of the text when it is
used up. `jsonParse_fuel` says that every bound above twice the length of the text gives the same
result, so that it never is.
-/

namespace FteQuake

/-! ## Nodes -/

/-- `json_type_*`. -/
inductive JsonType
  | string
  | number
  | object
  | array
  | true
  | false
  | null
  deriving DecidableEq, Repr

/-- `json_t`: its type, name, the pointers `bodystart` and `bodyend`, and its children. -/
inductive JsonNode
  | mk (type : JsonType) (name : List QByte) (body : Option (List QByte × List QByte))
      (children : List JsonNode)

/-- The bytes from one pointer up to a later one. -/
def between (start stop : List QByte) : List QByte := start.take (start.length - stop.length)

theorem between_append (a b : List QByte) : between (a ++ b) b = a := by
  simp [between]

/-- `"%u"` of an array index. -/
def decimal (idx : ℕ) : List QByte :=
  (Nat.toDigits 10 (idx % 2 ^ 32)).map fun c => BitVec.ofNat 8 c.toNat

/-! ## Tokens -/

def quote : QByte := 0x22
def slash : QByte := 0x2f
def comma : QByte := 0x2c
def colon : QByte := 0x3a
def lbrace : QByte := 0x7b
def rbrace : QByte := 0x7d
def lbracket : QByte := 0x5b
def rbracket : QByte := 0x5d

/-- Space, tab, carriage return and line feed. -/
def isWhite (c : QByte) : Bool := c ∈ ([0x20, 0x09, 0x0d, 0x0a] : List QByte)

/-- The bytes that end an unquoted word. -/
def isDelimiter (c : QByte) : Bool :=
  isWhite c || c ∈ ([colon, comma, rbrace, lbrace, lbracket, rbracket] : List QByte)

/-- The rest of a line: it ends before the line break. -/
def skipLine (s : List QByte) : List QByte := s.dropWhile fun c => c ≠ 0x0d && c ≠ 0x0a

/-- The rest of a block comment. One that is not closed ends before the last byte. -/
def skipBlock : List QByte → List QByte
  | c :: d :: s => if c = 0x2a ∧ d = slash then s else skipBlock (d :: s)
  | s => s

theorem length_skipLine_le (s : List QByte) : (skipLine s).length ≤ s.length :=
  List.length_dropWhile_le _ s

theorem length_skipBlock_le (s : List QByte) : (skipBlock s).length ≤ s.length := by
  fun_induction skipBlock s with
  | case1 => simp; omega
  | case2 c d s h ih => exact ih.trans (Nat.le_succ _)
  | case3 => exact le_rfl

/-- `JSON_SkipWhite`: white space and comments. -/
def jsonSkipWhite : List QByte → List QByte
  | [] => []
  | c :: s =>
    if isWhite c then jsonSkipWhite s
    else if c = slash then
      match s with
      | [] => [c]
      | d :: s =>
        if d = slash then jsonSkipWhite (skipLine s)
        else if d = 0x2a then jsonSkipWhite (skipBlock s)
        else c :: d :: s
    else c :: s
  termination_by s => s.length
  decreasing_by
  · simp
  · have := length_skipLine_le s
    simp only [List.length_cons]
    omega
  · have := length_skipBlock_le s
    simp only [List.length_cons]
    omega

/-- The bytes that may follow a backslash. -/
def isEscape (c : QByte) : Bool :=
  c ∈ ([quote, backslash, slash, 0x62, 0x66, 0x6e, 0x72, 0x74, 0x75] : List QByte)

/-- The loop of `JSON_ParseString` over a quoted string, up to the quote that closes it. -/
def scanQuoted : List QByte → List QByte
  | [] => []
  | [c] => if c = quote then [c] else []
  | c :: d :: s =>
    if c = quote then c :: d :: s
    else if c = backslash ∧ isEscape d then scanQuoted s
    else scanQuoted (d :: s)

/-- The loop of `JSON_ParseString` over an unquoted word. -/
def scanWord (s : List QByte) : List QByte := s.dropWhile fun c => !isDelimiter c

/-- `JSON_ParseString`: `start` and `end`, when it succeeds, and the text after it. -/
def jsonParseString (s : List QByte) : Option (List QByte × List QByte) × List QByte :=
  if s.head? = some quote then
    match scanQuoted s.tail with
    | [] => (none, [])
    | c :: r => (some (s.tail, c :: r), r)
  else if s.length = (scanWord s).length then (none, scanWord s)
  else (some (s, scanWord s), scanWord s)

/-- `Q_strncasecmp` against a lower case word of the same length. -/
def equalsNoCase (word : List QByte) (lower : List QByte) : Bool :=
  word.map (fun c => if 0x41 ≤ c ∧ c ≤ 0x5a then c + 0x20 else c) = lower

/-- The type of an unquoted word. -/
def wordType (word : List QByte) : JsonType :=
  if word.length = 4 ∧ equalsNoCase word [0x74, 0x72, 0x75, 0x65] then .true
  else if word.length = 5 ∧ equalsNoCase word [0x66, 0x61, 0x6c, 0x73, 0x65] then .false
  else if word.length = 4 ∧ equalsNoCase word [0x6e, 0x75, 0x6c, 0x6c] then .null
  else .number

/-! ## The parser -/

/-- The branches of `JSON_ParseNode` for strings and unquoted words. -/
def jsonParseScalar (name s : List QByte) : Option JsonNode × List QByte :=
  match jsonParseString s with
  | (none, r) => (none, r)
  | (some (start, stop), r) =>
    let type := if s.head? = some quote then JsonType.string else wordType (between start stop)
    (some (.mk type name (some (start, stop)) []), r)

mutual

/-- `JSON_ParseNode`: the node, if there is one, and the text after it. -/
def jsonParseNode : (fuel : ℕ) → (name s : List QByte) → Option JsonNode × List QByte
  | 0, _, _ => (none, [])
  | fuel + 1, name, s =>
    match jsonSkipWhite s with
    | [] => (none, [])
    | c :: s =>
      if c = lbrace then
        let (children, r) := jsonMembers fuel (jsonSkipWhite s)
        match r with
        | [] => (none, [])
        | d :: r =>
          if d = rbrace then (some (.mk .object name none children), r) else (none, d :: r)
      else if c = lbracket then
        let (children, r) := jsonElements fuel 0 (jsonSkipWhite s)
        match jsonSkipWhite r with
        | [] => (none, [])
        | d :: r =>
          if d = rbracket then (some (.mk .array name none children), r) else (none, d :: r)
      else jsonParseScalar name (c :: s)

/-- The member loop of `JSON_ParseNode`: the children it attaches and where it stops. -/
def jsonMembers : (fuel : ℕ) → (s : List QByte) → List JsonNode × List QByte
  | 0, _ => ([], [])
  | fuel + 1, s =>
    if s.head? = some quote then
      match jsonParseString s with
      | (none, r) => ([], r)
      | (some (start, stop), r) =>
        let value : Option (List JsonNode) × List QByte :=
          match jsonSkipWhite r with
          | [] => (some [], [])
          | c :: r =>
            if c = colon then
              match jsonParseNode fuel (between start stop) r with
              | (none, r) => (none, r)
              | (some n, r) => (some [n], r)
            else (some [], c :: r)
        match value with
        | (none, r) => ([], r)
        | (some ns, r) =>
          match jsonSkipWhite r with
          | [] => (ns, [])
          | c :: r =>
            if c = comma then
              let (ns', r) := jsonMembers fuel (jsonSkipWhite r)
              (ns ++ ns', r)
            else (ns, c :: r)
    else ([], s)

/-- The element loop of `JSON_ParseNode`. -/
def jsonElements : (fuel idx : ℕ) → (s : List QByte) → List JsonNode × List QByte
  | 0, _, _ => ([], [])
  | fuel + 1, idx, s =>
    match jsonParseNode fuel (decimal idx) s with
    | (none, r) => ([], r)
    | (some n, r) =>
      match r with
      | [] => ([n], [])
      | c :: r =>
        if c = comma then
          let (ns, r) := jsonElements fuel (idx + 1) (jsonSkipWhite r)
          (n :: ns, r)
        else ([n], c :: r)

end

/-- The text without the UTF-8 byte order mark that `JSON_Parse` skips. -/
def skipByteOrderMark (text : List QByte) : List QByte :=
  if text.take 3 = [0xef, 0xbb, 0xbf] then text.drop 3 else text

/-- `JSON_Parse`, on the bytes before the NUL. -/
def jsonParse (text : List QByte) : Option JsonNode :=
  let s := skipByteOrderMark text
  let (n, r) := jsonParseNode (2 * s.length + 1) [] s
  if jsonSkipWhite r = [] then n else none

end FteQuake
