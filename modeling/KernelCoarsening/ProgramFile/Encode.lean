/-
Writing a program file.

A record becomes an object with its fields in order, an alternative with content
an object with its tag as only key, an alternative without content its tag, and a
handle its position.
-/
import KernelCoarsening.Ir.Program
import KernelCoarsening.Json.Writer
import KernelCoarsening.ProgramFile.Tag

namespace KernelCoarsening

open Json (tagged)

def BlockId.encode (b : BlockId) : Json := .nat b.index

def InstId.encode (i : InstId) : Json := .nat i.index

def GlobalId.encode (g : GlobalId) : Json := .nat g.index

def AddressSpace.encode (s : AddressSpace) : Json := .str s.tag

def Ty.encode : Ty → Json
  | void => .str "Void"
  | i1 => .str "I1"
  | i32 => .str "I32"
  | i64 => .str "I64"
  | f32 => .str "F32"
  | f64 => .str "F64"
  | ptr space => tagged "Ptr" space.encode

def Value.encode : Value → Json
  | inst i => tagged "Inst" i.encode
  | arg n => tagged "Arg" (.nat n)
  | const c => tagged "Const" (.int c.toInt)
  | global g => tagged "Global" g.encode
  | undef => .str "Undef"

/-- An incoming value of a phi with the block it belongs to. -/
def Value.encodeIncoming (entry : Value × BlockId) : Json := .arr [entry.1.encode, entry.2.encode]

def Operation.encode : Operation → Json
  | binary op l r => tagged "Binary" (.obj
      [("op", .str op.tag), ("lhs", l.encode), ("rhs", r.encode)])
  | compare rel l r => tagged "Cmp" (.obj
      [("pred", .str rel.tag), ("lhs", l.encode), ("rhs", r.encode)])
  | convert op v => tagged "Cast" (.obj [("op", .str op.tag), ("value", v.encode)])
  | select c t e => tagged "Select" (.obj
      [("cond", c.encode), ("on_true", t.encode), ("on_false", e.encode)])
  | phi incoming => tagged "Phi" (.obj [("incoming", .list Value.encodeIncoming incoming)])
  | element b i => tagged "Gep" (.obj [("base", b.encode), ("index", i.encode)])
  | load p => tagged "Load" (.obj [("ptr", p.encode)])
  | store p v => tagged "Store" (.obj [("ptr", p.encode), ("value", v.encode)])
  | call f args => tagged "Call" (.obj [("callee", .str f), ("args", .list Value.encode args)])
  | jump t => tagged "Br" (.obj [("target", t.encode)])
  | branch c t e => tagged "CondBr" (.obj
      [("cond", c.encode), ("then_block", t.encode), ("else_block", e.encode)])
  | ret v => tagged "Ret" (.obj [("value", .option Value.encode v)])
  | unreachable => .str "Unreachable"

def Param.encode (p : Param) : Json := .obj [("name", .str p.name), ("ty", p.ty.encode)]

def Block.encode (b : Block) : Json :=
  .obj [("name", .str b.name), ("insts", .list InstId.encode b.insts)]

def Inst.encode (i : Inst) : Json :=
  .obj [("kind", i.op.encode), ("ty", i.ty.encode), ("name", .str i.name),
    ("block", .option BlockId.encode i.block)]

def Func.encode (f : Func) : Json :=
  .obj [("name", .str f.name), ("params", .list Param.encode f.params),
    ("ret_ty", f.returnTy.encode), ("calling_conv", .str f.convention.tag),
    ("blocks", .list Block.encode f.blocks.toList),
    ("layout", .list BlockId.encode f.layout), ("insts", .list Inst.encode f.insts.toList)]

def Global.encode (g : Global) : Json :=
  .obj [("name", .str g.name), ("ty", g.ty.encode), ("len", .nat g.length),
    ("address_space", g.space.encode)]

def Annotation.encode (a : Annotation) : Json :=
  .obj [("symbol", .str a.symbol), ("key", .str a.key), ("value", .int a.value.toInt)]

def Program.encode (p : Program) : Json :=
  .obj [("name", .str p.name), ("target_triple", .str p.target),
    ("functions", .list Func.encode p.functions), ("globals", .list Global.encode p.globals),
    ("annotations", .list Annotation.encode p.annotations)]

/-- The text of the program file. -/
def Program.fileText (p : Program) : String := p.encode.pretty

end KernelCoarsening
