import MacroAssembler.Text.Basic

/-!
# The directives

A directive is a word that starts with a dot or a number sign.  Several words may name the same
directive.  The families below group the directives by what they act on.
-/

namespace MacroAssembler

/-- What decides a conditional branch. -/
inductive BranchTest where
  /-- An expression is not zero. -/
  | condition
  /-- A macro or a label with a name is there. -/
  | defined
  /-- No macro and no label with a name is there. -/
  | undefined
  deriving DecidableEq, Repr

/-- The directives around the branches of a conditional block. -/
inductive BranchDirective where
  | openBlock (test : BranchTest)
  | alternative (test : BranchTest)
  | otherwise
  | close
  deriving DecidableEq, Repr

/-- The directives on modules and on how names are seen. -/
inductive ScopeDirective where
  | enter
  | leave
  | imports
  | nest
  | allLocal
  | allGlobal
  | localMark
  | exports
  deriving DecidableEq, Repr

/-- The directives that put bytes into the output. -/
inductive DataDirective where
  | values (width : Nat)
  | floats
  | fill
  | reserve
  | align
  deriving DecidableEq, Repr

/-- The function behind a table of values. -/
inductive WaveShape where
  | sine
  | cosine
  | tangent
  deriving DecidableEq, Repr

/-- The directives that put generated tables into the output. -/
inductive SeriesDirective where
  | random (width : Nat)
  | wave (shape : WaveShape) (width : Nat)
  deriving DecidableEq, Repr

/-- The directives on macros. -/
inductive MacroDirective where
  | define
  | extend
  | beginLong
  | endLong
  | undefine
  deriving DecidableEq, Repr

/-- The directives on structs and variables. -/
inductive StorageDirective where
  | beginStruct
  | endStruct
  | declare (isTemporary : Bool)
  | area
  deriving DecidableEq, Repr

/-- The directives on the order of execution. -/
inductive FlowDirective where
  | count
  | repeatTimes
  | loop
  | stop
  deriving DecidableEq, Repr

/-- The directives that read files as bytes. -/
inductive BinaryDirective where
  | insert
  | openFile
  | readNumber
  | seek
  | size
  | close
  deriving DecidableEq, Repr

/-- The directives on pages and addresses. -/
inductive PlacementDirective where
  | origin
  | definePage
  | selectPage
  | emptyFill
  | squish (on : Bool)
  | relocate
  | endRelocate
  | binaryMode
  deriving DecidableEq, Repr

/-- The directives that tell the user, or a debugger, something. -/
inductive NoticeDirective where
  | message
  | warning
  | failure
  | breakpoint
  deriving DecidableEq, Repr

/-- A directive. -/
inductive Directive where
  | branch (d : BranchDirective)
  | scope (d : ScopeDirective)
  | data (d : DataDirective)
  | series (d : SeriesDirective)
  | charMap
  | macroText (d : MacroDirective)
  | storage (d : StorageDirective)
  | flow (d : FlowDirective)
  | includeFile
  | binary (d : BinaryDirective)
  | placement (d : PlacementDirective)
  | notice (d : NoticeDirective)
  /-- Only has a meaning after a label. -/
  | equate
  deriving DecidableEq, Repr

namespace Directive

/-- The words for the directives. -/
def names : List (String × Directive) :=
  [("if", .branch (.openBlock .condition)), ("ifdef", .branch (.openBlock .defined)),
   ("ifndef", .branch (.openBlock .undefined)), ("elseif", .branch (.alternative .condition)),
   ("elseifdef", .branch (.alternative .defined)),
   ("elseifndef", .branch (.alternative .undefined)), ("else", .branch .otherwise),
   ("endif", .branch .close),
   ("module", .scope .enter), ("endmodule", .scope .leave), ("using", .scope .imports),
   ("nestmodules", .scope .nest), ("local", .scope .allLocal), ("global", .scope .allGlobal),
   ("localprefix", .scope .localMark), ("export", .scope .exports),
   ("db", .data (.values 1)), ("byte", .data (.values 1)), ("text", .data (.values 1)),
   ("asc", .data (.values 1)), ("dw", .data (.values 2)), ("word", .data (.values 2)),
   ("dl", .data (.values 4)), ("long", .data (.values 4)), ("dfloat", .data .floats),
   ("fill", .data .fill), ("ds", .data .reserve), ("block", .data .reserve),
   ("align", .data .align),
   ("dbrnd", .series (.random 1)), ("dwrnd", .series (.random 2)),
   ("dbsin", .series (.wave .sine 1)), ("dwsin", .series (.wave .sine 2)),
   ("dbcos", .series (.wave .cosine 1)), ("dwcos", .series (.wave .cosine 2)),
   ("dbtan", .series (.wave .tangent 1)), ("dwtan", .series (.wave .tangent 2)),
   ("asciimap", .charMap),
   ("define", .macroText .define), ("defcont", .macroText .extend),
   ("deflong", .macroText .beginLong), ("enddeflong", .macroText .endLong),
   ("undefine", .macroText .undefine), ("undef", .macroText .undefine),
   ("struct", .storage .beginStruct), ("endstruct", .storage .endStruct),
   ("var", .storage (.declare false)), ("tvar", .storage (.declare true)),
   ("varloc", .storage .area),
   ("for", .flow .count), ("repeat", .flow .repeatTimes), ("loop", .flow .loop),
   ("end", .flow .stop),
   ("include", .includeFile),
   ("incbin", .binary .insert), ("fopen", .binary .openFile), ("fread", .binary .readNumber),
   ("fseek", .binary .seek), ("fsize", .binary .size), ("fclose", .binary .close),
   ("org", .placement .origin), ("defpage", .placement .definePage),
   ("page", .placement .selectPage), ("emptyfill", .placement .emptyFill),
   ("squish", .placement (.squish true)), ("unsquish", .placement (.squish false)),
   ("relocate", .placement .relocate), ("endrelocate", .placement .endRelocate),
   ("binarymode", .placement .binaryMode),
   ("echo", .notice .message), ("warn", .notice .warning), ("fail", .notice .failure),
   ("error", .notice .failure), ("breakpoint", .notice .breakpoint),
   ("bp", .notice .breakpoint),
   ("equ", .equate)]

/-- The directives by their words. -/
def index : Index Directive :=
  names.map fun (name, d) => (name.toList, d)

/-- The directive with a name. -/
def ofName (name : Text) : Option Directive :=
  index.lookup name

/-- The name of a directive in lower case, if a word has the form of one. -/
def nameOf (word : Text) : Option Text :=
  match word with
  | [] => none
  | mark :: name =>
    if (mark == '.' || mark == '#') && !name.isEmpty && name.all Char.isAlphanum then
      some (Text.asciiLower name)
    else none

/-- The directive that a word names. -/
def ofWord (word : Text) : Option Directive :=
  (nameOf word).bind ofName

/-- Whether the operands of a directive name macros, so that the macros in them must stay. -/
def namesMacros : Directive → Bool
  | .macroText _ => true
  | .branch (.openBlock test) | .branch (.alternative test) => test != .condition
  | _ => false

end Directive

end MacroAssembler
