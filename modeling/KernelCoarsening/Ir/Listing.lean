/-
Listings: functions and programs as text.

A value is written with its name; a nameless instruction as `%t` and a nameless
block as `bb` with its handle.  Globals are written by name where the program is
at hand, and with their handle otherwise.
-/
import KernelCoarsening.Ir.Program

namespace KernelCoarsening

namespace Func

/-- How an instruction is referred to. -/
def refText (i : InstId) (inst : Inst) : String :=
  if inst.name.isEmpty then "%t" ++ toString i.index else "%" ++ inst.name

/-- An operand. -/
def valueText (f : Func) (globals : List Global) : Value → Except Fault String
  | .inst i => refText i <$> f.inst i
  | .arg n => .ok <| match f.params[n]? with
    | some p => "%" ++ p.name
    | none => "%arg" ++ toString n
  | .const c => .ok (toString c.toInt)
  | .global g => .ok <| match globals[g.index]? with
    | some global => "@" ++ global.name
    | none => "@g" ++ toString g.index
  | .undef => .ok "undef"

/-- An operand with its type before it. -/
def typedText (f : Func) (globals : List Global) (v : Value) : Except Fault String := do
  let ty ← f.valueType v
  return ty.text ++ " " ++ (← f.valueText globals v)

/-- What an instruction does, given the type of its result. -/
def operationText (f : Func) (globals : List Global) (ty : Ty) : Operation → Except Fault String
  | .binary op l r => do
    return op.mnemonic ++ " " ++ ty.text ++ " " ++ (← f.valueText globals l) ++ ", "
      ++ (← f.valueText globals r)
  | .compare rel l r => do
    return "icmp " ++ rel.mnemonic ++ " " ++ (← f.typedText globals l) ++ ", "
      ++ (← f.valueText globals r)
  | .convert op v => do
    return op.mnemonic ++ " " ++ (← f.typedText globals v) ++ " to " ++ ty.text
  | .select c t e => do
    return "select " ++ (← f.typedText globals c) ++ ", " ++ (← f.typedText globals t) ++ ", "
      ++ (← f.typedText globals e)
  | .phi incoming => do
    let arms ← incoming.mapM fun (v, b) => do
      return "[ " ++ (← f.valueText globals v) ++ ", %" ++ (← f.label b) ++ " ]"
    return "phi " ++ ty.text ++ " " ++ ", ".intercalate arms
  | .element b i => do
    return "getelementptr " ++ (← f.typedText globals b) ++ ", " ++ (← f.typedText globals i)
  | .load p => do
    return "load " ++ ty.text ++ ", " ++ (← f.typedText globals p)
  | .store p v => do
    return "store " ++ (← f.typedText globals v) ++ ", " ++ (← f.typedText globals p)
  | .call callee args => do
    return "call " ++ ty.text ++ " @" ++ callee ++ "("
      ++ ", ".intercalate (← args.mapM (f.typedText globals)) ++ ")"
  | .jump t => do
    return "br label %" ++ (← f.label t)
  | .branch c t e => do
    return "br " ++ (← f.typedText globals c) ++ ", label %" ++ (← f.label t)
      ++ ", label %" ++ (← f.label e)
  | .ret none => .ok "ret void"
  | .ret (some v) => do
    return "ret " ++ (← f.typedText globals v)
  | .unreachable => .ok "unreachable"

/-- An instruction; one with a result says what the result is called. -/
def instText (f : Func) (globals : List Global) (i : InstId) : Except Fault String := do
  let inst ← f.inst i
  let body ← f.operationText globals inst.ty inst.op
  return if inst.ty.isValue then refText i inst ++ " = " ++ body else body

/-- A block: its label and its instructions, a line each. -/
def blockText (f : Func) (globals : List Global) (b : BlockId) : Except Fault String := do
  let block ← f.block b
  let lines ← block.insts.mapM fun i => do return "  " ++ (← f.instText globals i) ++ "\n"
  return (← f.label b) ++ ":\n" ++ String.join lines

/-- The word that marks a calling convention. -/
def conventionText : CallingConvention → String
  | .c => ""
  | .kernel => "ptx_kernel "
  | .device => "ptx_device "

/-- The first line of a function, without the word before it. -/
def headerText (f : Func) : String :=
  conventionText f.convention ++ f.returnTy.text ++ " @" ++ f.name ++ "("
    ++ ", ".intercalate (f.params.map fun p => p.ty.text ++ " %" ++ p.name) ++ ")"

/-- The listing of a function, with globals written by name where they are known. -/
def listing (f : Func) (globals : List Global) : Except Fault String := do
  if f.isDeclaration then
    return "declare " ++ f.headerText ++ "\n"
  else
    let blocks ← f.layout.mapM (f.blockText globals)
    return "define " ++ f.headerText ++ " \x7b\n" ++ "\n".intercalate blocks ++ "\x7d\n"

end Func

/-- The listing of a global. -/
def Global.listing (g : Global) : String :=
  "@" ++ g.name ++ " = addrspace(" ++ toString g.space.number ++ ") global ["
    ++ toString g.length ++ " x " ++ g.ty.text ++ "] undef\n"

/-- The listing of an annotation, which is a comment. -/
def Annotation.listing (a : Annotation) : String :=
  "; annotation @" ++ a.symbol ++ " !\"" ++ a.key ++ "\" " ++ toString a.value.toInt ++ "\n"

/-- The listing of a program. -/
def Program.listing (p : Program) : Except Fault String := do
  let functions ← p.functions.mapM fun f => do return "\n" ++ (← f.listing p.globals)
  let annotations := p.annotations.map Annotation.listing
  return "; ModuleID = '" ++ p.name ++ "'\ntarget triple = \"" ++ p.target ++ "\"\n"
    ++ String.join (p.globals.map Global.listing) ++ String.join functions
    ++ (if annotations.isEmpty then "" else "\n" ++ String.join annotations)

end KernelCoarsening
