import StructLang.Flat.Basic
import StructLang.Number.Decimal
import StructLang.Text.Quoted

/-!
# QBE assembly

The text of a flat module.
-/

namespace StructLang.Flat

def Operand.text : Operand → String
  | temp name => "%" ++ name
  | int v => toString v.toInt
  | single v => "s_" ++ v.explicitText
  | double v => "d_" ++ v.explicitText
  | global name => "$" ++ name

/-- Octal digits filled up to three places. -/
def octal (n : Nat) : String := Text.padZeros 3 (String.ofList (Nat.toDigits 8 n))

/-- A character between quotes. -/
def charText (c : Char) : String :=
  match c with
  | '\\' => "\\\\"
  | '"' => "\\\""
  | '\n' => "\\n"
  | '\r' => "\\r"
  | '\t' => "\\t"
  | _ => if c.toNat < 0x20 then "\\" ++ octal c.toNat else String.singleton c

/-- A text between quotes. -/
def quotedText (s : String) : String := String.join (s.toList.map charText)

def Instr.text : Instr → String
  | label name => s!"@{name}\n"
  | assign dest cls op args =>
    let given := ", ".intercalate (args.map Operand.text)
    s!"\t%{dest} ={cls.name} {op.name} {given}\n"
  | store cls value address => s!"\tstore{cls.name} {value.text}, {address.text}\n"
  | blit source target size => s!"\tblit {source.text}, {target.text}, {size}\n"
  | call dest func args =>
    let assigned := match dest with
      | some (name, cls) => s!"%{name} ={cls.name} "
      | none => ""
    let given := ", ".intercalate (args.map fun a => s!"{a.1.name} {a.2.text}")
    s!"\t{assigned}call ${func}({given})\n"
  | jump target => s!"\tjmp @{target}\n"
  | jumpIf cond thenLabel elseLabel => s!"\tjnz {cond.text}, @{thenLabel}, @{elseLabel}\n"
  | ret (some v) => s!"\tret {v.text}\n"
  | ret none => "\tret\n"
  | halt => "\thlt\n"

/-- The size and alignment of a struct. -/
def TypeDef.text (t : TypeDef) : String :=
  s!"type :{t.name} = align {t.align} \x7b {t.size} \x7d\n"

/-- A text in memory. -/
def Datum.text (d : Datum) : String :=
  if d.value.isEmpty then s!"data ${d.name} = \x7b b 0 \x7d\n"
  else s!"data ${d.name} = \x7b b \"{quotedText d.value}\", b 0 \x7d\n"

def Function.text (f : Function) : String :=
  let exported := if f.isExported then "export " else ""
  let ret := match f.ret with
    | some cls => cls.name ++ " "
    | none => ""
  let params := ", ".intercalate (f.params.map fun p => s!"{p.1.name} %{p.2}")
  s!"{exported}function {ret}${f.name}({params}) \x7b\n"
    ++ String.join (f.body.map Instr.text) ++ "\x7d\n"

def Module.text (m : Module) : String :=
  String.join (m.types.map TypeDef.text) ++ String.join (m.data.map Datum.text)
    ++ String.join (m.functions.map fun f => "\n" ++ f.text)

end StructLang.Flat
