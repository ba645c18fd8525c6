/-
What can be wrong with a tree: faults that are found before any of it runs.
-/
import Kettle.Text.Quoted
import Kettle.Kind

namespace Kettle

/-- The comma-separated lists in parentheses. -/
inductive Listing where
  | params | args
  deriving DecidableEq, Repr

/-- What a list is called. -/
def Listing.name : Listing → Text
  | params => "parameter list"
  | args => "argument list"

/-- Why a tree has no code. -/
inductive CompileCause where
  | uncompilable (kind : Kind) (text : Text)
  | operandCount (what : Text) (expected found : Nat)
  | crowdedGroup
  | targetNotName (shown : Text)
  | targetReserved (name : Text)
  | malformedNumber (text : Text)
  | invalidEscape (escape : Text)
  | functionParts
  | paramsNotGrouped
  | paramNotName (shown : Text)
  | paramRepeated (name : Text)
  | bodyNotBlock
  | callParts
  | brokenList (list : Listing)
  | returnOperands
  | nestedTooDeeply
  deriving DecidableEq, Repr

/-- The wording of a compile fault. -/
def CompileCause.message : CompileCause → Text
  | uncompilable kind text => "cannot compile " ++ kind.name ++ " " ++ Text.quoted text
  | operandCount what expected found =>
    "malformed " ++ what ++ ": expected " ++ Text.ofNat expected ++ " operands, found " ++ Text.ofNat found
  | crowdedGroup => "parenthesised group must hold a single expression"
  | targetNotName shown => "assignment target must be an identifier, found " ++ shown
  | targetReserved name => "cannot assign to " ++ name
  | malformedNumber text => "malformed number " ++ Text.quoted text
  | invalidEscape escape => "invalid escape \\" ++ escape ++ " in string literal"
  | functionParts => "malformed function: requires a parameter list and a body"
  | paramsNotGrouped => "malformed function: parameter list must be parenthesised"
  | paramNotName shown => "parameters must be identifiers, found " ++ shown
  | paramRepeated name => "duplicate parameter " ++ Text.quoted name
  | bodyNotBlock => "malformed function: body must be a block"
  | callParts => "malformed call: requires a callee and an argument list"
  | brokenList list => list.name ++ " must be a single comma-separated list"
  | returnOperands => "return takes at most one operand"
  | nestedTooDeeply => "expression nested too deeply to compile"

/-- Why the text of an integer gives no number. -/
inductive NumeralCause where
  | tooLong (limit digits : Nat)
  | notANumber (text : Text)
  deriving DecidableEq, Repr

/-- The wording of a numeral fault; of a text that is no number at most 200 runes are shown. -/
def NumeralCause.message : NumeralCause → Text
  | tooLong limit digits =>
    "Exceeds the limit (" ++ Text.ofNat limit ++ " digits) for integer string conversion: value has "
      ++ Text.ofNat digits ++ " digits; use sys.set_int_max_str_digits() to increase the limit"
  | notANumber text => "invalid literal for int() with base 10: " ++ (Text.quoted text).take 200

end Kettle
