import Bytelift.Code.Assembler

/-!
# Faults of a source

What can be wrong with one line of a source, and with a source as a whole. A fault that shows at a
line is reported with the number of the line; one that shows only when a method is finished is
reported with the name of the method.
-/

namespace Bytelift.Source

inductive LineFault
  | unterminatedString
  | classInMethod
  | classWithoutName
  | extendsWithoutClass
  | unexpectedInClass (token : Text)
  | misplacedField
  | nestedMethod
  | endWithoutMethod
  | methodWithoutEnd
  | outsideMethod (token : Text)
  | methodHeader
  | notMember (token : Text)
  | descriptor (cause : DescriptorError)
  | missingOperand (position : Nat)
  | number (cause : NumberError)
  | tryOperands
  | finallyOperands
  | unknownMnemonic (token : Text)
  | elementTypeMissing
  | unknownElementType (token : Text)
  | wantsLabel (op : Opcode)
  | wantsConstant (op : Opcode)
  | wantsMember (op : Opcode)
  | wantsClass (op : Opcode)
  | badString (token : Text)
  | tableOperands
  | lookupOperands
  | badCase (token : Text)
  | notTextual (op : Opcode)
  | assembly (cause : AssemblyError)
  deriving DecidableEq, Repr

def LineFault.message : LineFault → Text
  | .unterminatedString => "unterminated string"
  | .classInMethod => ".class inside .method"
  | .classWithoutName => ".class needs a name"
  | .extendsWithoutClass => "extends needs a class"
  | .unexpectedInClass t => "unexpected " ++ t.quote ++ " in .class"
  | .misplacedField => ".field must follow .class as '.field name desc'"
  | .nestedMethod => "nested .method"
  | .endWithoutMethod => ".end without .method"
  | .methodWithoutEnd => ".method without .end"
  | .outsideMethod t => t.quote ++ " outside .method"
  | .methodHeader => ".method wants [static] Owner.name desc"
  | .notMember t => "member " ++ t.quote ++ " is not Owner.name"
  | .descriptor e => e.message
  | .missingOperand n => "missing operand " ++ Text.ofNat n
  | .number e => e.message
  | .tryOperands => ".try wants start end handler type|any"
  | .finallyOperands => ".finally wants start end handler"
  | .unknownMnemonic t => t.quote ++ ": unknown opcode"
  | .elementTypeMissing => "newarray wants an element type"
  | .unknownElementType t => "unknown array element type " ++ t.quote
  | .wantsLabel op => op.mnemonic ++ " wants a label"
  | .wantsConstant op => op.mnemonic ++ " wants one constant"
  | .wantsMember op => op.mnemonic ++ " wants Owner.name desc"
  | .wantsClass op => op.mnemonic ++ " wants a class"
  | .badString t => "string constant " ++ t ++ ": invalid syntax"
  | .tableOperands => "tableswitch wants low default label..."
  | .lookupOperands => "lookupswitch wants default key:label..."
  | .badCase t => "lookupswitch case " ++ t.quote ++ " is not key:label"
  | .notTextual op => op.mnemonic ++ " cannot be assembled from text"
  | .assembly e => e.message

inductive SourceError
  | lineTooLong
  | line (number : Nat) (fault : LineFault)
  | method (owner name : Text) (cause : AssemblyError)
  deriving DecidableEq, Repr

def SourceError.message : SourceError → Text
  | .lineTooLong => "bufio.Scanner: token too long"
  | .line n f => "line " ++ Text.ofNat n ++ ": " ++ f.message
  | .method owner name e => "method " ++ owner ++ "." ++ name ++ ": " ++ e.message

end Bytelift.Source
