/-!
# Errors

What can go wrong, by cause. A cause carries the data its report needs and no
text; the wording is in `Error.message` and the functions it calls.
-/

namespace Lindenmayer

/-- An angle that cannot serve as the production angle of a system. -/
inductive UnusableAngle
  | zero (negative : Bool)
  | infinite (negative : Bool)
  | notANumber
  deriving DecidableEq, Repr

/-- Weights that no choice can be made by. -/
inductive UnusableWeights
  /-- There are no weights. -/
  | absent
  /-- The weights are all zero. -/
  | allZero
  deriving DecidableEq, Repr

/-- A defect of a rule set, an order, a word or a plot setting. -/
inductive ConfigurationFault
  /-- A literal rule whose key is the empty word. -/
  | emptyKey
  /-- A weighted rule set without rules. -/
  | noRules
  /-- A weighted rule set without weights. -/
  | noWeights
  /-- A weighted rule set with more rules than weights. -/
  | tooFewWeights
  /-- A weight that is zero or negative. -/
  | weightNotPositive
  /-- Weights whose sum does not fit in 64 bits. -/
  | weightsOverflow
  /-- Weights that no choice can be made by. -/
  | weightsNotUsable (weights : UnusableWeights)
  /-- A contextual rule with a malformed key or an empty replacement. -/
  | malformedRule (key : List Char)
  /-- A derivation that starts from the empty word. -/
  | emptyStart
  /-- An order below zero. -/
  | negativeOrder
  /-- An order that does not fit in 32 bits. -/
  | orderTooLarge (order : Int)
  /-- A production angle that is zero or not finite. -/
  | angleNotUsable (angle : UnusableAngle)
  /-- An empty word given to the turtle. -/
  | emptyWord
  /-- A zero angle given to the turtle. -/
  | zeroAngle
  /-- A `(` that opens no heading. -/
  | malformedHeading
  /-- A polygon opened inside another one. -/
  | polygonNested (position : Nat)
  /-- A polygon closed though none is open. -/
  | polygonNotOpen (position : Nat)
  /-- A polygon left open at the end of the word. -/
  | polygonNotClosed
  /-- A colour that is neither a name nor `#rrggbb`. -/
  | invalidColor (color : String)
  deriving DecidableEq, Repr

/-- A defect of the parallel lists that describe several subplots. -/
inductive LayoutFault
  | noWords
  | noAngles
  | noLabels
  | tooFewAngles
  | tooFewLabels
  deriving DecidableEq, Repr

/-- Why a derivation was stopped. -/
inductive AbortReason
  /-- The deadline had passed before the generation started. -/
  | deadline
  /-- The generation takes `bytes` bytes, more than `limit`. -/
  | growth (bytes limit : Nat)
  deriving DecidableEq, Repr

/-- How a sink refused what was written to it. -/
inductive SinkFault
  | full
  | flush
  deriving DecidableEq, Repr

/-- The errors of derivations, drawings, layouts, plots and documents. -/
inductive Error
  /-- Something was specified wrongly. -/
  | configuration (fault : ConfigurationFault)
  /-- The contextual rules met a symbol outside their alphabet. -/
  | unsupportedSymbol (symbol : Char) (position : Nat)
  /-- A `]` at which no turtle is saved. -/
  | stackUnderflow (position : Nat)
  /-- The lists that describe the subplots do not fit together. -/
  | layoutInput (fault : LayoutFault)
  /-- A derivation was stopped before the generation was complete. -/
  | aborted (generation : Nat) (reason : AbortReason)
  /-- A document could not be read. -/
  | document
  /-- A sink refused the output. -/
  | sink (fault : SinkFault)
  deriving DecidableEq, Repr

/-! ## Wording -/

/-- The angle as it is named in a report. -/
def UnusableAngle.message : UnusableAngle → String
  | .zero false => "0"
  | .zero true => "-0"
  | .infinite false => "inf"
  | .infinite true => "-inf"
  | .notANumber => "NaN"

/-- The weights as they are named in a report. -/
def UnusableWeights.message : UnusableWeights → String
  | .absent => "No weights provided in distribution"
  | .allZero => "All weights are zero in distribution"

/-- The report of a configuration fault. -/
def ConfigurationFault.message : ConfigurationFault → String
  | .emptyKey => "a literal rule has an empty key"
  | .noRules => "rules were not specified"
  | .noWeights => "weights were not specified"
  | .tooFewWeights => "fewer weights specified than the number of rules"
  | .weightNotPositive => "weights must be positive"
  | .weightsOverflow => "weights overflow"
  | .weightsNotUsable weights => "invalid weights: " ++ weights.message
  | .malformedRule key =>
    "the rule '" ++ String.ofList key ++ "' was not specified correctly"
  | .emptyStart => "axiom was not specified"
  | .negativeOrder => "curve order must be non-negative"
  | .orderTooLarge order => "curve order " ++ toString order ++ " is too large"
  | .angleNotUsable angle => "the production angle " ++ angle.message ++ " is not usable"
  | .emptyWord => "the turtle commands were not generated"
  | .zeroAngle => "the production angle is zero"
  | .malformedHeading => "the specified angle is not syntactically well-formed"
  | .polygonNested position =>
    "polygon opened at position " ++ toString position ++ " while another is open"
  | .polygonNotOpen position =>
    "polygon closed at position " ++ toString position ++ " was never opened"
  | .polygonNotClosed => "polygon was not closed"
  | .invalidColor color => "the color name '" ++ color ++ "' is not valid"

/-- The report of a layout fault. -/
def LayoutFault.message : LayoutFault → String
  | .noWords => "the turtle commands were not specified"
  | .noAngles => "the turtle angles were not stated"
  | .noLabels => "the labels were not specified"
  | .tooFewAngles => "fewer turtle angles specified than the number of commands"
  | .tooFewLabels => "fewer labels specified than the number of commands"

/-- The report of an abort. -/
def AbortReason.message : AbortReason → String
  | .deadline => "deadline exceeded"
  | .growth bytes limit =>
    toString bytes ++ " symbols exceeds the limit of " ++ toString limit

/-- The report of a sink. -/
def SinkFault.message : SinkFault → String
  | .full => "sink full"
  | .flush => "flush failed"

/-- The report of an error. -/
def Error.message : Error → String
  | .configuration fault => "configuration error: " ++ fault.message
  | .unsupportedSymbol symbol position =>
    "the symbol '" ++ symbol.toString ++ "' is not supported (position " ++
      toString position ++ ")"
  | .stackUnderflow position =>
    "unbalanced branch: ']' at position " ++ toString position ++
      " has no saved turtle state"
  | .layoutInput fault => "layout input error: " ++ fault.message
  | .aborted generation reason =>
    "derivation aborted before generation " ++ toString generation ++ ": " ++ reason.message
  | .document => "invalid configuration document"
  | .sink fault => "i/o error: " ++ fault.message

end Lindenmayer
