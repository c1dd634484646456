import PredicateExpr.CommandLine

/-!
# The parts of the command line

A list of arguments is a row of expressions and options, which may be followed by `--` and by more
expressions, written as they are. `Parts.texts` writes such a row as arguments, and `Splits` is the
other direction. What the parts ask for can be told from them without reading them one after the
other: each kind of option is looked at by itself, and the order of the kinds does not matter.

A text is told from an option by the hyphen at its beginning. A hyphen alone is a text.
-/

namespace PredicateExpr.CommandLine

/-- A text that cannot be taken for an option. -/
def Plain (text : String) : Prop :=
  text.toList.head? = some '-' → text = "-"

instance (text : String) : Decidable (Plain text) :=
  inferInstanceAs (Decidable (_ → _))

/-- An argument by which the program is asked about itself: for its version, or for help. -/
def AsksAbout (text : String) : Prop :=
  text = "--version" ∨ "-V".toList <+: text.toList ∨ text = "--help" ∨ "-h".toList <+: text.toList

instance (text : String) : Decidable (AsksAbout text) :=
  inferInstanceAs (Decidable (_ ∨ _))

/-! ## Parts -/

/-- A part of the command line. -/
inductive Part
  /-- An expression. -/
  | expression (text : String)
  /-- An option with its value, which is attached by an equals sign, or else the next argument. -/
  | valued (option : ValueOption) (value : String) (attached : Bool)
  /-- The option that shows the tokens. -/
  | tokens
  deriving DecidableEq, Repr

namespace Part

/-- The arguments that a part is written as. -/
def texts : Part → List String
  | expression text => [text]
  | valued option value true => [option.name ++ "=" ++ value]
  | valued option value false => [option.name, value]
  | tokens => ["--tokens"]

/-- A part that is taken for what it is: its texts do not look like options, unless they are
attached to one. -/
def Legal : Part → Prop
  | expression text => Plain text
  | valued _ _ true => True
  | valued _ value false => Plain value
  | tokens => True

instance : DecidablePred Legal
  | expression text => inferInstanceAs (Decidable (Plain text))
  | valued _ _ true => .isTrue trivial
  | valued _ value false => inferInstanceAs (Decidable (Plain value))
  | tokens => .isTrue trivial

/-- The text of an expression. -/
def text? : Part → Option String
  | expression text => some text
  | _ => none

/-- The value that a part gives to an option. -/
def value? (option : ValueOption) : Part → Option String
  | valued other value _ => if other = option then some value else none
  | _ => none

end Part

/-- The parts of the command line, and what stands behind `--`. -/
structure Parts where
  /-- The parts in front of `--`. -/
  items : List Part
  /-- The texts behind it, if it is there. -/
  behind? : Option (List String)

/-- The arguments that parts are written as, one after another. -/
def Parts.texts (parts : Parts) : List String :=
  parts.items.flatMap Part.texts ++
    match parts.behind? with
    | none => []
    | some behind => "--" :: behind

/-- The parts that a list of arguments is made of. -/
structure Splits (arguments : List String) (parts : Parts) : Prop where
  /-- Every part is taken for what it is. -/
  legal : ∀ part ∈ parts.items, part.Legal
  /-- The arguments are what the parts are written as. -/
  texts : arguments = parts.texts

/-- Arguments that ask the program about itself, be it behind parts that do not. -/
def Asks (arguments : List String) : Prop :=
  ∃ (items : List Part) (text : String) (rest : List String),
    (∀ part ∈ items, part.Legal) ∧ AsksAbout text ∧
      arguments = items.flatMap Part.texts ++ text :: rest

/-! ## What the parts ask for -/

/-- The values of an option, in order. -/
def values (option : ValueOption) (items : List Part) : List String :=
  items.filterMap (Part.value? option)

/-- The assignments, in order. -/
def assignments (items : List Part) : List Assignment :=
  (values .set items).filterMap Assignment.ofText?

/-- Parts that can be complied with. -/
structure Valid (items : List Part) : Prop where
  /-- The tokens are asked for once at most. -/
  tokens : items.count .tokens ≤ 1
  /-- A log level is given once at most. -/
  logLevel : (values .logLevel items).length ≤ 1
  /-- What is to be assigned are assignments. -/
  assignments : ∀ value ∈ values .set items, (Assignment.ofText? value).isSome = true
  /-- What is given as a log level is one. -/
  levels : ∀ value ∈ values .logLevel items, (LogLevel.ofText? value).isSome = true

namespace Parts

/-- The expressions, in order. -/
def expressions (parts : Parts) : List String :=
  parts.items.filterMap Part.text? ++ parts.behind?.getD []

/-- The report that is asked for. Without any expression it is on the demonstration. -/
def report (parts : Parts) : Report :=
  Report.ofTexts (Assignment.valuation (assignments parts.items))
    (decide (Part.tokens ∈ parts.items))
    (if parts.expressions = [] then demonstration else parts.expressions)

end Parts

/-- A value of the environment variable that can be used: it is a log level, if there is one. -/
def Usable (levelText? : Option String) : Prop :=
  ∀ text, levelText? = some text → (LogLevel.ofText? text).isSome = true

/-- The same parts in another order, in which expressions follow one another as before, and so do
assignments. -/
structure Interleaves (items others : List Part) : Prop where
  /-- The parts are the same. -/
  perm : items.Perm others
  /-- The expressions are in order. -/
  expressions : items.filterMap Part.text? = others.filterMap Part.text?
  /-- So are the assignments. -/
  assignments : values .set items = values .set others

end PredicateExpr.CommandLine
