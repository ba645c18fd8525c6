/-
Faults: everything that can stop a source from giving a value, by the stage that finds it, with the
position it is found at.
-/
import Kettle.Text.Utf8
import Kettle.Position
import Kettle.Fault.Lexical
import Kettle.Fault.Grammar
import Kettle.Fault.Compile
import Kettle.Fault.Evaluation

namespace Kettle

/-- Why a source cannot be read or shown. -/
inductive SourceCause where
  | noSuchFile (name : Text)
  | unreadable (name reason : Text)
  | undecodable (name : Text) (fault : Utf8.Fault)
  | tooDeepToShow
  deriving DecidableEq, Repr

/-- The wording of a source fault. -/
def SourceCause.message : SourceCause → Text
  | noSuchFile name => "no such file: " ++ name
  | unreadable name reason => "cannot read " ++ name ++ ": " ++ reason
  | undecodable name fault => "cannot read " ++ name ++ ": " ++ fault.message
  | tooDeepToShow => "maximum recursion depth exceeded"

/-- What goes wrong between the program and what is around it, where no part of the program expects it. -/
inductive OutsideCause where
  /-- The system does not say whether there is a file. -/
  | lookup (reason : Text)
  /-- Standard input is no text. -/
  | input (fault : Utf8.Fault)
  /-- A value has too many levels to be written out. -/
  | tooDeepToWrite
  /-- Standard output does not take a text. -/
  | output (reason : Text)
  deriving DecidableEq, Repr

/-- The wording of an outside fault. -/
def OutsideCause.message : OutsideCause → Text
  | lookup reason => reason
  | input fault => fault.message
  | tooDeepToWrite => "maximum recursion depth exceeded"
  | output reason => reason

/-- A grammatical fault that was reported and did not stop the building of the tree. -/
structure Complaint where
  cause : GrammarCause
  pos : Position
  deriving DecidableEq, Repr

/-- What stops a source. -/
inductive Fault where
  | lexical (cause : LexicalCause) (pos : Position)
  | grammar (cause : GrammarCause) (pos : Position)
  | compile (cause : CompileCause) (pos : Position)
  | numeral (cause : NumeralCause)
  | runtime (cause : RuntimeCause) (pos : Option Position)
  | source (cause : SourceCause)
  | outside (cause : OutsideCause)
  deriving DecidableEq, Repr

/-- The classes of errors. -/
inductive ErrorClass where
  | kettle | lex | parse | compile | runtime | type | arity
  deriving DecidableEq, Repr

namespace ErrorClass

/-- Every class. -/
def all : List ErrorClass := [kettle, lex, parse, compile, runtime, type, arity]

/-- The name of a class. -/
def name : ErrorClass → Text
  | kettle => "KettleError"
  | lex => "LexError"
  | parse => "ParseError"
  | compile => "CompileError"
  | runtime => "KettleRuntimeError"
  | type => "KettleTypeError"
  | arity => "KettleArityError"

/-- The class that a class is a part of. -/
def base? : ErrorClass → Option ErrorClass
  | kettle => none
  | type | arity => some runtime
  | _ => some kettle

/-- A class and the classes that it is a part of, the narrowest first. -/
def lineage (c : ErrorClass) : List ErrorClass :=
  c :: match c.base? with
    | none => []
    | some base => base :: base.base?.toList

end ErrorClass

/-- The class of a runtime fault among all errors. -/
def RuntimeClass.toErrorClass : RuntimeClass → ErrorClass
  | general => .runtime
  | type => .type
  | arity => .arity

namespace Fault

/-- The class of a fault, if it is an error of the language. Every part of the program deals with those, and with
no other faults. -/
def errorClass? : Fault → Option ErrorClass
  | lexical .. => some .lex
  | grammar .. => some .parse
  | compile .. => some .compile
  | runtime cause _ => some cause.toClass.toErrorClass
  | source _ => some .kettle
  | numeral _ | outside _ => none

/-- Whether a fault is an error of the language. -/
def isError (f : Fault) : Bool := f.errorClass?.isSome

/-- The wording of a fault, without its place. -/
def message : Fault → Text
  | lexical cause _ => cause.message
  | grammar cause _ => cause.message
  | compile cause _ => cause.message
  | numeral cause => cause.message
  | runtime cause _ => cause.message
  | source cause => cause.message
  | outside cause => cause.message

/-- Where a fault is found. -/
def pos? : Fault → Option Position
  | lexical _ pos | grammar _ pos | compile _ pos => some pos
  | runtime _ pos? => pos?
  | numeral _ | source _ | outside _ => none

/-- A fault with its place. -/
def describe (f : Fault) : Text := (Place.ofOption f.pos?).locate f.message

end Fault

/-- A complaint with its place. -/
def Complaint.describe (c : Complaint) : Text := (Place.ofPosition c.pos).locate c.cause.message

end Kettle
