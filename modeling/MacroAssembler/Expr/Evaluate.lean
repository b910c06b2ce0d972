import MacroAssembler.DataType
import MacroAssembler.Expr.Term
import MacroAssembler.Expr.Ternary

/-!
# Evaluation of expressions

An expression is evaluated by rewriting its text.  References in braces become numbers, then
literals, then bracketed groups from the inside out; a conditional picks a branch; what remains is
a chain of terms and operators.  A number written into the text is one operand again when the text
is read, see `Numeral.write`.

Evaluation runs against an `Environment`, the expression's view of the program being assembled.
Looking up a label may leave a trace there, so the environment has a state, and a failing
evaluation keeps the trace it has left up to the failure.

Groups are resolved one after the other at the same level, so brackets may nest without limit.
Conditionals evaluate a branch as an expression of its own, and these may nest `maxNesting` deep.
-/

namespace MacroAssembler

/-- A computation that reads and writes an environment and may fail; the state survives a
failure. -/
abbrev EvalM (σ : Type) := EStateM ExprError σ

/-- What an expression can see of the program being assembled. -/
structure Environment (σ : Type) where
  /-- The value of a label. -/
  label : Text → EvalM σ Float
  /-- The page of a label. -/
  page : Text → EvalM σ Float
  /-- The current address. -/
  address : σ → Float
  /-- The value of a reusable label. -/
  reusable : ReusableRef → EvalM σ Float
  /-- The size of a type or a variable. -/
  sizeOf : Text → EvalM σ Float
  /-- Whether a label is defined. -/
  isDefined : Text → σ → Bool
  /-- The byte that a character of a literal stands for. -/
  charByte : σ → Char → UInt8

/-- How deep conditionals may nest. -/
def maxNesting : Nat := 256

variable {σ : Type}

/-! ## Braces -/

/-- A stretch of text on the look-out for references in braces. -/
inductive BraceChunk where
  | plain (text : Text)
  /-- What stands between a brace and the next closing one. -/
  | reference (inner : Text)
  /-- A brace with no closing one behind it. -/
  | unclosed

/-- Cuts a text that follows the character `before` at its references in braces.  Braces inside of
literals do not count. -/
def braceChunks (before : Option Char) (text : Text) : List BraceChunk :=
  match text with
  | [] => []
  | c :: rest =>
    if c = '\x7b' then
      match _h : Text.splitAtFirst '\x7d' rest with
      | some (inner, after) => .reference inner :: braceChunks none after
      | none => [.unclosed]
    else if Text.opensLiteral before c then
      match _h : Text.closeQuote c rest with
      | some (body, after) => .plain (c :: body ++ [c]) :: braceChunks (some c) after
      | none => .plain [c] :: braceChunks (some c) rest
    else .plain [c] :: braceChunks (some c) rest
termination_by text.length
decreasing_by
  · exact Nat.lt_succ_of_lt (Text.length_lt_of_splitAtFirst _h)
  · exact Nat.lt_succ_of_lt (Text.length_lt_of_closeQuote _h)
  · simp
  · simp

/-- The text with its references in braces replaced by their values. -/
def replaceBraces (env : Environment σ) (text : Text) : EvalM σ Text := do
  let parts ← (braceChunks none text).mapM fun
    | .plain part => pure part
    | .reference inner =>
      match ReusableRef.read inner with
      | some target => return Numeral.write (← env.reusable target)
      | none => throw (.badReusable inner)
    | .unclosed => throw (.malformed text)
  return parts.flatten

/-! ## Literals -/

/-- The value of a literal: its first eight characters as bytes, least first. -/
def packedValue (charByte : Char → UInt8) (chars : Text) : Nat :=
  (chars.take 8).foldr (fun c n => (charByte c).toNat + 256 * n) 0

/-- The text with its literals replaced by their values.  Every literal has to be closed. -/
def replaceLiterals (env : Environment σ) (text : Text) : EvalM σ Text := do
  let charByte := env.charByte (← get)
  let parts ← (Text.pieces text).mapM fun
    | .literal _ body =>
      pure (Numeral.write (Float.ofNat (packedValue charByte (Text.unescape body))))
    | .unclosed _ => throw (.unterminated text)
    | .char c => pure [c]
  return parts.flatten

/-! ## Groups -/

/-- The text with its bracketed groups replaced by their values, innermost first.  `call` works
out a group from the name in front of it and the text inside.  The text is consumed from the left;
`done` holds what has been consumed and replaced, last character first, so a closing bracket
finds its partner at the nearest opening one. -/
def replaceGroups (call : (name inner : Text) → EvalM σ Float) (done : Text) :
    Text → EvalM σ Text
  | [] => if done.contains '(' then throw (.unbalanced done.reverse) else pure done.reverse
  | c :: rest =>
    if c = ')' then
      match Text.splitAtFirst '(' done with
      | none => throw (.unbalanced (done.reverse ++ c :: rest))
      | some (inner, front) => do
        let value ← call (front.takeWhile isNameChar).reverse inner.reverse
        replaceGroups call ((Numeral.write value).reverse ++ front.dropWhile isNameChar) rest
    else replaceGroups call (c :: done) rest

/-- The functions of one value, in lower case. -/
def mathFunctions : List (Text × (Float → Float)) :=
  [("abs".toList, Float.abs), ("sqrt".toList, Float.sqrt), ("sin".toList, Float.sin),
   ("cos".toList, Float.cos), ("tan".toList, Float.tan), ("asin".toList, Float.asin),
   ("acos".toList, Float.acos), ("atan".toList, Float.atan), ("log".toList, Float.log),
   ("exp".toList, Float.exp), ("floor".toList, Value.floor), ("ceil".toList, Value.ceil),
   ("round".toList, Value.round), ("int".toList, Value.trunc)]

/-- The value of a group: of the expression inside, of a function of it, or of a cast. -/
def callGroup (env : Environment σ) (eval : Text → EvalM σ Float) (name inner : Text) :
    EvalM σ Float :=
  let lower := Text.asciiLower name
  if name.isEmpty then eval inner
  else if lower = "sizeof".toList then env.sizeOf (Text.trim inner)
  else if lower = "defined".toList then
    return Value.ofTruth (env.isDefined (Text.trim inner) (← get))
  else match mathFunctions.lookup lower, DataType.builtin name with
    | some f, _ => return f (← eval inner)
    | none, some ty => return ty.cast (← eval inner)
    | none, none => throw (.unknownFunction name)

/-! ## Chains and conditionals -/

/-- The value of an operand. -/
def evalOperand (env : Environment σ) : Operand → EvalM σ Float
  | .number value => pure value
  | .address => return env.address (← get)
  | .page name => env.page name
  | .label name => env.label name
  | .badNumeral text => throw (.malformed text)

/-- The value of a term; the unary operator next to the operand is applied first. -/
def evalTerm (env : Environment σ) (term : Term) : EvalM σ Float :=
  return term.unaries.foldr Unary.apply (← evalOperand env term.operand)

/-- The value of a chain of terms.  All terms are worked out, from left to right, before any
operator is applied. -/
def evalChain (env : Environment σ) (text : Text) : EvalM σ Float :=
  match Term.read text with
  | none => throw (.malformed text)
  | some (term, rest) => do
    let first ← evalTerm env term
    let (chain, complete) := readChain rest
    let chain ← chain.mapM fun (op, term) => return (op, ← evalTerm env term)
    if !complete then throw (.malformed text)
    match reduce first chain with
    | .ok value => return value
    | .error e => throw e

/-- The value of an expression in which conditionals nest at most `nesting` deep. -/
def evalNested (env : Environment σ) (nesting : Nat) (text : Text) : EvalM σ Float :=
  let text := Text.trim text
  if text.isEmpty then throw .empty
  else match nesting with
    | 0 => throw .tooDeep
    | nesting + 1 => do
      let text ← replaceBraces env text
      let text ← replaceLiterals env text
      let text ← replaceGroups (callGroup env (evalNested env nesting)) [] text
      match splitTernary text with
      | some (cond, yes, no) =>
        let cond ← evalNested env nesting cond
        evalNested env nesting (if cond != 0 then yes else no)
      | none => evalChain env text

/-- The value of an expression. -/
def evaluate (env : Environment σ) (text : Text) : EvalM σ Float :=
  evalNested env maxNesting text

end MacroAssembler
