import TreeCompiler.Asm.Line
import TreeCompiler.Asm.Quoted

namespace TreeCompiler.Asm

/-- The spelling of a function's symbol. -/
def symbolText (name : String) : String :=
  "$" ++ name

/-- The spelling of a mark. -/
def markText (name : String) : String :=
  "." ++ name

/-- The symbol of a string literal. -/
def stringText (index : Nat) : String :=
  "str_" ++ toString index

/-- A signed distance behind a register. -/
def distanceText (offset : Int) : String :=
  if offset < 0 then " - " ++ toString (-offset) else " + " ++ toString offset

/-- An address in brackets. -/
def Address.text : Address → String
  | .frame offset => "qword [rbp" ++ distanceText offset ++ "]"
  | .stack 0 => "[rsp]"
  | .stack offset => "[rsp" ++ distanceText offset ++ "]"
  | .pointee base => "[" ++ base.name ++ "]"
  | .element base position => "[" ++ base.name ++ " + " ++ position.name ++ "*8 + 8]"

/-- The mnemonic of an operation. -/
def Arith.name : Arith → String
  | .add => "add"
  | .sub => "sub"
  | .imul => "imul"
  | .and => "and"
  | .or => "or"
  | .xor => "xor"

/-- The mnemonic of an operation. -/
def Step.name : Step → String
  | .neg => "neg"
  | .inc => "inc"
  | .dec => "dec"

/-- The mnemonic that turns the outcome of a comparison into a byte. -/
def flagName : Code.CompareOp → String
  | .eq => "sete"
  | .ne => "setne"
  | .gt => "setg"
  | .ge => "setge"
  | .lt => "setl"
  | .le => "setle"

/-- The text of an instruction. -/
def Insn.text : Insn → String
  | .push r => "push " ++ r.name
  | .pop r => "pop " ++ r.name
  | .mov dst src => "mov " ++ dst.name ++ ", " ++ src.name
  | .movConst dst v => "mov " ++ dst.name ++ ", " ++ toString v
  | .load dst src => "mov " ++ dst.name ++ ", " ++ src.text
  | .store dst src => "mov " ++ dst.text ++ ", " ++ src.name
  | .storeConst dst v => "mov qword " ++ dst.text ++ ", " ++ toString v
  | .leaFrame dst depth => "lea " ++ dst.name ++ ", [rbp - " ++ toString depth ++ "]"
  | .leaString dst index => "lea " ++ dst.name ++ ", [rel " ++ stringText index ++ "]"
  | .grow bytes => "sub rsp, " ++ toString bytes
  | .shrink bytes => "add rsp, " ++ toString bytes
  | .arith op dst src => op.name ++ " " ++ dst.name ++ ", " ++ src.name
  | .step op dst => op.name ++ " " ++ dst.name
  | .signExtend => "cqo"
  | .divide divisor => "idiv " ++ divisor.name
  | .shiftLeft dst => "shl " ++ dst.name ++ ", cl"
  | .shiftRight dst => "sar " ++ dst.name ++ ", cl"
  | .compare left right => "cmp " ++ left.name ++ ", " ++ right.name
  | .compareZero left => "cmp " ++ left.name ++ ", 0"
  | .setFlag test => flagName test ++ " al"
  | .widenFlag => "movzx rax, al"
  | .jump name => "jmp " ++ markText name
  | .jumpIfZero name => "je " ++ markText name
  | .call name => "call " ++ symbolText name
  | .ret => "ret"
  | .syscall => "syscall"

/-- The bytes of a string literal as data, closed by a zero. -/
def dataText (text : Bytes) : String :=
  if text.isEmpty then "0" else quoteBytes text ++ ", 0"

/-- A line with its end. -/
def Line.text : Line → String
  | .blank => "\n"
  | .segment name => "section " ++ name ++ "\n"
  | .string index text => stringText index ++ ": db " ++ dataText text ++ "\n"
  | .external name => "extern " ++ symbolText name ++ "\n"
  | .global name => "global " ++ symbolText name ++ "\n"
  | .symbol name => symbolText name ++ ":\n"
  | .mark name => markText name ++ ":\n"
  | .comment text => "\t; " ++ text ++ "\n"
  | .insn x => "\t" ++ x.text ++ "\n"

/-- The text of lines. -/
def render (lines : List Line) : String :=
  String.join (lines.map Line.text)

end TreeCompiler.Asm
