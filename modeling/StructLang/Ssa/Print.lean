import StructLang.Ssa.Basic
import StructLang.Text.Quoted
import StructLang.Text.Utf8

/-!
# LLVM assembly

The text of an SSA module.
-/

namespace StructLang.Ssa

/-- A float constant is the bit pattern of its value in double precision. -/
def floatText (x : Binary64) : String := "0x" ++ Text.upperHexPadded 16 x.bits.toNat

def paramName (index : Nat) : String := s!"%p{index}"

/-- The all-zero value of a type. -/
def zeroText : Ty → String
  | .i1 => "false"
  | .i32 | .i64 => "0"
  | .f32 | .f64 => floatText .zero
  | .ptr => "null"
  | .struct _ | .void => "zeroinitializer"

def Operand.text : Operand → String
  | register r => registerName r
  | int v .i1 => if v = 0 then "false" else "true"
  | int v _ => toString v.toInt
  | float v _ => floatText v
  | zero ty => zeroText ty
  | param i => paramName i
  | global name => "@" ++ name

/-- A byte between quotes: a visible ASCII character stands for itself, any other byte is spelled by
its two hexadecimal digits. -/
def byteText (b : UInt8) : String :=
  if b.toNat = 0x22 || b.toNat = 0x5c || b.toNat < 0x20 || 0x7e < b.toNat then
    "\\" ++ Text.upperHexPadded 2 b.toNat
  else String.singleton (Char.ofNat b.toNat)

def bytesText (s : String) : String := String.join ((Utf8.encode s).map byteText)

/-- Types separated by commas. -/
def tyList (types : List Ty) : String := ", ".intercalate (types.map Ty.name)

/-- An instruction; a call through another signature than the one declared spells its own. -/
def Instr.text (m : Module) : Instr → String
  | alloca d ty => s!"{registerName d} = alloca {ty.name}"
  | load d ty p => s!"{registerName d} = load {ty.name}, ptr {p.text}"
  | store ty v p => s!"store {ty.name} {v.text}, ptr {p.text}"
  | arith d op ty l r => s!"{registerName d} = {op.name} {ty.name} {l.text}, {r.text}"
  | compare d pred ty l r => s!"{registerName d} = {pred.name} {ty.name} {l.text}, {r.text}"
  | cast d op v source target =>
    s!"{registerName d} = {op.name} {source.name} {v.text} to {target.name}"
  | field d struct base index => s!"{registerName d} = getelementptr inbounds %{struct}, " ++
    s!"ptr {base.text}, i32 0, i32 {index}"
  | call d func ret params args =>
    let assigned := match d with
      | some r => registerName r ++ " = "
      | none => ""
    let own := if m.signature? func = some (params, ret) then "" else s!"({tyList params}) "
    let given := ", ".intercalate (args.map fun a => s!"{a.1.name} {a.2.text}")
    s!"{assigned}call {ret.name} {own}@{func}({given})"

/-- The name of a block, also of one that does not exist. -/
def Function.label (f : Function) (target : Nat) : String :=
  match f.blocks[target]? with
  | some b => "%" ++ b.label
  | none => s!"%bb{target}"

def Terminator.text (f : Function) : Terminator → String
  | ret none => "ret void"
  | ret (some (ty, v)) => s!"ret {ty.name} {v.text}"
  | jump t => s!"br label {f.label t}"
  | branch c t e => s!"br i1 {c.text}, label {f.label t}, label {f.label e}"
  | unreachable => "unreachable"

def Block.text (m : Module) (f : Function) (b : Block) : String :=
  b.label ++ ":\n"
    ++ String.join (b.instrs.map fun i => "  " ++ i.text m ++ "\n")
    ++ match b.terminator with
      | some t => "  " ++ t.text f ++ "\n"
      | none => ""

def Function.text (m : Module) (f : Function) : String :=
  let params := ", ".intercalate
    (f.params.zipIdx.map fun p => s!"{p.1.2.name} {paramName p.2}")
  s!"define {f.ret.name} @{f.name}({params}) \x7b\n"
    ++ "\n".intercalate (f.blocks.map (Block.text m f)) ++ "\x7d\n"

def Struct.text (s : Struct) : String :=
  s!"%{s.name} = type \x7b {tyList s.fields} \x7d\n"

/-- A string constant with its length in bytes, the closing zero counted. -/
def Constant.text (s : Constant) : String :=
  let size := (Utf8.encode s.value).length + 1
  s!"@{s.name} = private unnamed_addr constant [{size} x i8] c\"{bytesText s.value}\\00\", align 1\n"

/-- The declaration of a function that is defined elsewhere. -/
def Foreign.text (f : Foreign) : String := s!"declare {f.ret.name} @{f.name}({tyList f.params})\n"

/-- Lines with a blank line in front, or nothing at all. -/
def section? (lines : List String) : String :=
  if lines.isEmpty then "" else "\n" ++ String.join lines

def Module.text (m : Module) : String :=
  s!"; ModuleID = '{m.name}'\nsource_filename = \"{m.name}\"\n"
    ++ section? (m.structs.map Struct.text)
    ++ section? (m.strings.map Constant.text)
    ++ section? (m.foreigns.map Foreign.text)
    ++ String.join (m.functions.map fun f => "\n" ++ f.text m)

end StructLang.Ssa
