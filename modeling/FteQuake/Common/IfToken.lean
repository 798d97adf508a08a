import FteQuake.Common.CmdIf
import FteQuake.Common.ExpandString
import FteQuake.Common.StringParse
import FteQuake.Lib.FloatFormat
import FteQuake.Lib.Precedence
import Mathlib.Data.BitVec

/-!
# Conditions of the console

`If_Token` of `cmd.c`, which evaluates the condition of an `if`: terms, with operators of the priorities of `ifops`
between them. All values are texts; that of 0 is empty. The recursion is bounded by `n`, since `eval` evaluates the
value of an expression once more.

Behind an operator, `If_Token` goes on at the same priority, so that operators of equal priority are applied from the
right. So an expression has its value by the table, from the left, where all those that come next to
each other associate: `cat`, `&&` and `||` do so with themselves.

`COM_ParseToken` returns a pointer behind the terminator for a string that is not ended, which is a fault.
-/

namespace FteQuake

namespace IfToken

open CmdIf CFloat FirstInfix

/-! ## Values -/

/-- `atof`. -/
def atof (s : List QByte) : CFloat := strtod s

/-- `atoi`. -/
def atoi (s : List QByte) : BitVec 32 := BitVec.ofInt 32 (CmdExpand.strtol s).1

def retint (n : BitVec 32) : List QByte :=
  if n = 0 then [] else (if n.toInt < 0 then [0x2d] else []) ++ CFloat.decimal n.toInt.natAbs

def retbool (b : Bool) : List QByte := if b then [0x31] else []

def retfloat (f : CFloat) : List QByte := if f.single.IsZero then [] else f.single.formatG

/-- A truth value, or an `int`, as a `float`. -/
def retTruth (b : Bool) : List QByte := retfloat (ofInt (if b then 1 else 0))

def retNumber (n : BitVec 32) : List QByte := retfloat (ofInt n.toInt)

inductive IfOp
  | cat
  | mul
  | div
  | mod
  | add
  | sub
  | shl
  | shr
  | isin
  | isnotin
  | lt
  | le
  | gt
  | ge
  | eq
  | ne
  | ba
  | xor
  | bo
  | la
  | lo
  deriving DecidableEq, Repr

/-- The comparison of two texts that are numbers, or not. -/
def sameValue (left right : List QByte) : Bool :=
  if isNumeric left && isNumeric right then (atof left).equal (atof right) else left = right

/-- `If_Operator`. A shift is that of the processor, by the low bits of the right operand. -/
def ifOperator (op : IfOp) (left right : List QByte) : List QByte :=
  match op with
  | .cat => (left ++ right).take 8190
  | .mul => retfloat ((atof left).mul (atof right))
  | .div => retfloat ((atof left).div (atof right))
  | .mod => if atoi right ≠ 0 then retfloat (ofInt ((atoi left).toInt.tmod (atoi right).toInt)) else retfloat (ofInt 0)
  | .add => retfloat ((atof left).add (atof right))
  | .sub => retfloat ((atof left).sub (atof right))
  | .shl => retNumber (atoi left <<< ((atoi right).toNat % 32))
  | .shr => retNumber ((atoi left).sshiftRight ((atoi right).toNat % 32))
  | .isin => retTruth (splitFirst left right).isSome
  | .isnotin => retTruth (splitFirst left right).isNone
  | .lt => retTruth ((atof left).less (atof right))
  | .le => retTruth ((atof left).less (atof right) || (atof left).equal (atof right))
  | .gt => retTruth ((atof right).less (atof left))
  | .ge => retTruth ((atof right).less (atof left) || (atof left).equal (atof right))
  | .eq => retTruth (sameValue left right)
  | .ne => retTruth (!sameValue left right)
  | .ba => retNumber (atoi left &&& atoi right)
  | .xor => retNumber (atoi left ^^^ atoi right)
  | .bo => retNumber (atoi left ||| atoi right)
  | .la => retTruth (isTrue left && isTrue right)
  | .lo => retTruth (isTrue left || isTrue right)

/-- An entry of `ifops`; `opnamelen` is the length of the name. -/
structure Operator where
  opname : List QByte
  pri : ℕ
  op : IfOp
  deriving DecidableEq

def ifops : List Operator :=
  [⟨chars ['c', 'a', 't'], 3, .cat⟩,
    ⟨chars ['*'], 3, .mul⟩,
    ⟨chars ['m', 'u', 'l'], 3, .mul⟩,
    ⟨chars ['/'], 3, .div⟩,
    ⟨chars ['d', 'i', 'v'], 3, .div⟩,
    ⟨chars ['%'], 3, .mod⟩,
    ⟨chars ['m', 'o', 'd'], 3, .mod⟩,
    ⟨chars ['+'], 4, .add⟩,
    ⟨chars ['a', 'd', 'd'], 4, .add⟩,
    ⟨chars ['-'], 4, .sub⟩,
    ⟨chars ['s', 'u', 'b'], 4, .sub⟩,
    ⟨chars ['<', '<'], 5, .shl⟩,
    ⟨chars ['>', '>'], 5, .shr⟩,
    ⟨chars ['i', 's', 'i', 'n'], 5, .isin⟩,
    ⟨chars ['!', 'i', 's', 'i', 'n'], 5, .isnotin⟩,
    ⟨chars ['<', '='], 6, .le⟩,
    ⟨chars ['<'], 6, .lt⟩,
    ⟨chars ['>', '='], 6, .ge⟩,
    ⟨chars ['>'], 6, .gt⟩,
    ⟨chars ['=', '='], 7, .eq⟩,
    ⟨chars ['='], 7, .eq⟩,
    ⟨chars ['e', 'q', 'u', 'a', 'l'], 7, .eq⟩,
    ⟨chars ['!', '='], 7, .ne⟩,
    ⟨chars ['&', '&'], 11, .la⟩,
    ⟨chars ['&'], 8, .ba⟩,
    ⟨chars ['a', 'n', 'd'], 8, .ba⟩,
    ⟨chars ['^'], 9, .xor⟩,
    ⟨chars ['x', 'o', 'r'], 8, .xor⟩,
    ⟨chars ['|', '|'], 12, .lo⟩,
    ⟨chars ['|'], 10, .bo⟩,
    ⟨chars ['o', 'r'], 10, .bo⟩]

/-- `IF_PRI_MAX`. -/
def ifPriMax : ℕ := 12

/-! ## Tokens -/

/-- White space and comments before a token; a line end is a token. -/
def skipToken : StringParse.Skip → List QByte → List QByte
  | _, [] => []
  | .white, c :: data =>
    if c ≤ 32 ∧ c ≠ 13 ∧ c ≠ 10 then skipToken .white data
    else if c = 47 ∧ data.head? = some 47 then skipToken .line data
    else if c = 47 ∧ data.head? = some 42 then skipToken .opening data
    else c :: data
  | .line, c :: data => if c = 10 then c :: data else skipToken .line data
  | .opening, _ :: data => skipToken .block data
  | .block, c :: data => if c = 42 ∧ data.head? = some 47 then skipToken .closing data else skipToken .block data
  | .closing, _ :: data => skipToken .white data

/-- `sizeof(com_token) - 1`. -/
def tokenMax : ℕ := 65535

/-- A token, and the text behind it, of which there is none behind the last one. -/
abbrev Parsed := List QByte × Option (List QByte)

/-- A string in quotes that ends. -/
def quotedToken (data : List QByte) : Option Parsed :=
  let text := data.takeWhile (· ≠ 34)
  if tokenMax ≤ text.length then some (text.take tokenMax, some (data.drop tokenMax))
  else if text = data then none else some (text, some (data.drop (text.length + 1)))

/-- A string with C escapes. -/
def escapedToken (data : List QByte) : Option Parsed :=
  (ParseCString.comParseCString (some (.ofBytes data)) (BitVec.ofNat 64 (tokenMax + 1))).bind fun r =>
    match r.result with
    | none => some (r.written.dropLast, none)
    | some p => if p ≤ data.length then some (r.written.dropLast, some (data.drop p)) else none

/-- A character that goes on with a word. -/
def isTokenByte (punctuation : List QByte) (c : QByte) : Bool := 32 < c.toInt ∧ c ∉ punctuation

/-- `COM_ParseToken`. -/
def comParseToken (punctuation data : List QByte) : Option Parsed :=
  match skipToken .white data with
  | [] => some ([], none)
  | c :: data =>
    if c = 13 ∨ c = 10 then some ([10], some (if c = 13 ∧ data.head? = some 10 then data.drop 1 else data))
    else if c = 34 then quotedToken data
    else if c = 92 ∧ data.head? = some 34 then escapedToken data
    else if c ∈ punctuation then some ([c], some data)
    else
      let word := (c :: data.takeWhile (isTokenByte punctuation)).take tokenMax
      some (word, some ((c :: data).drop word.length))

/-- `IFPUNCT`. -/
def ifPunct : List QByte :=
  chars ['(', ',', '{', '}', ')', '~', '\'', ':', '=', '!', '>', '<', '&', '|', '+', '*', '/', '-']

/-! ## `If_Token` -/

/-- What a condition is evaluated with: what is read of the cvar of a name, if there is one, `rand`, which is told what
is left of the text, and what `vid` knows. -/
structure Env where
  cvar : List QByte → Option (List QByte)
  rand : List QByte → ℕ
  vid : List QByte → List QByte

/-- The text in parentheses, and the text behind the one that closes. -/
def closeParen : (level : ℕ) → List QByte → Option (List QByte × List QByte)
  | _, [] => none
  | level, c :: s =>
    if c = 41 ∧ level = 1 then some ([], s)
    else (closeParen (if c = 41 then level - 1 else if c = 40 then level + 1 else level) s).map
      fun r => (c :: r.1, r.2)

/-- The first token of a term. In single quotes nothing is punctuation. -/
def termToken (func : List QByte) : Option Parsed :=
  if func.head? = some 39 then
    some (((func.drop 1).takeWhile (· ≠ 39)).take tokenMax, some (((func.drop 1).dropWhile (· ≠ 39)).drop 1))
  else comParseToken ifPunct func

/-- The value of a name, or of a text that is none. -/
def readVar (env : Env) (token : List QByte) : List QByte :=
  (env.cvar (if token.head? = some 36 then token.drop 1 else token)).getD token

/-- `If_Token_Term`; `eval` is `If_Token`. -/
def ifTokenTerm (env : Env) (eval : List QByte → ℕ → Option Parsed) (func : List QByte) : Option Parsed :=
  (termToken (func.dropWhile control)).bind fun r =>
    match r.2 with
    | none => some (readVar env r.1, none)
    | some s =>
      if r.1.head? = some 40 then
        match closeParen 1 s with
        | some (t, behind) => (eval t ifPriMax).map fun v => (v.1, some behind)
        | none => (eval s ifPriMax).map fun v => (v.1, some [])
      else if r.1.head? = some 33 then (eval s 0).map fun v => (retbool (!isTrue v.1), v.2)
      else if r.1.head? = some 126 then (eval s 0).map fun v => (retbool (~~~atoi v.1 ≠ 0), v.2)
      else if r.1.head? = some 45 then (eval s 0).map fun v => (retfloat (atof v.1).neg, v.2)
      else if r.1 = chars ['i', 'n', 't'] then (eval s 0).map fun v => (retint (atoi v.1), v.2)
      else if r.1 = chars ['s', 't', 'r', 'l', 'e', 'n'] then
        (eval s 0).map fun v => (retfloat (ofInt v.1.length), v.2)
      else if r.1 = chars ['e', 'v', 'a', 'l'] then
        (eval s ifPriMax).bind fun v => (eval v.1 ifPriMax).map fun v' => (v'.1, v.2)
      else if r.1 = chars ['d', 'e', 'f', 'i', 'n', 'e', 'd'] then
        (comParseToken ifPunct s).map fun name => (retbool (env.cvar name.1).isSome, name.2)
      else if r.1 = chars ['r', 'a', 'n', 'd', 'o', 'm'] then
        some (retfloat ((ofInt (env.rand s % 2 ^ 15)).div (ofInt 0x7fff)), some s)
      else if r.1 = chars ['v', 'i', 'd'] then (comParseToken ifPunct s).map fun name => (env.vid name.1, name.2)
      else some (readVar env r.1, some s)

/-- The entry of the table that matches first. -/
def findOperator (s : List QByte) : Option Operator := ifops.find? fun o => o.opname <+: s

/-- `If_Token`, in at most `n` nested calls. -/
def ifToken (env : Env) : (n : ℕ) → (func : List QByte) → (pri : ℕ) → Option Parsed
  | 0, _, _ => none
  | n + 1, func, pri =>
    (if pri = 0 then ifTokenTerm env (ifToken env n) func else ifToken env n func (pri - 1)).bind fun left =>
      match left.2 with
      | none => some left
      | some s =>
        match findOperator (s.dropWhile blank) with
        | none => some left
        | some o =>
          if pri = o.pri then
            (ifToken env n ((s.dropWhile blank).drop o.opname.length) pri).map fun right =>
              (ifOperator o.op left.1 right.1, right.2)
          else some left

/-- `If_EvaluateBoolean`. -/
def ifEvaluateBoolean (env : Env) (n : ℕ) (text : List QByte) : Option Bool :=
  (ifToken env n text ifPriMax).map fun r => isTrue r.1

end IfToken

end FteQuake
