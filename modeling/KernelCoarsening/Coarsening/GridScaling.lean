/-
The place in the launch, after coarsening.

A coarsened kernel is launched with `factor` times fewer threads or blocks.  The
physical identity `p` stands for the logical identities `base + k * stride` with
`k < factor`, where `base = (p / stride) * (factor * stride) + p % stride`.  Extents
are multiplied by `factor`, so that the kernel sees the logical launch.
-/
import KernelCoarsening.Ir.Copy
import KernelCoarsening.Coarsening.Error
import KernelCoarsening.Coarsening.Replica
import KernelCoarsening.Grid.Reads

namespace KernelCoarsening

/-- A constant operand. -/
def Value.ofNat (n : Nat) : Value := .const (Int64.ofNat n)

namespace Func

/-- Multiplies a read of an extent, for all its readers. -/
def scaleExtent (factor : Nat) (f : Func) (i : InstId) : Except Fault Func := do
  let inst ← f.inst i
  let (f, scaled) ← f.insertAfter i (.binary .mul (.inst i) (.ofNat factor)) inst.ty
    (suffixed inst.name ".scaled")
  let (f, _) ← f.replaceUsesExcept i (.inst scaled) [scaled]
  return f

/-- Adds the identities of the merged threads behind an instruction: `base` plus multiples of
the stride, from `k` on, `count` in number. -/
def addSiblings (base : InstId) (ty : Ty) (name : String) (stride : Nat) (f : Func)
    (behind : InstId) (k : Nat) : Nat → Except Fault (Func × List InstId)
  | 0 => .ok (f, [])
  | count + 1 => do
    let offset := Int64.ofNat k * Int64.ofNat stride
    let (f, sibling) ← f.insertAfter behind (.binary .add (.inst base) (.const offset)) ty
      (suffixed name (".cf" ++ toString (k + 1)))
    let (f, siblings) ← addSiblings base ty name stride f sibling (k + 1) count
    return (f, sibling :: siblings)

/-- Computes the first logical identity from a read of the physical one, for all its readers,
and the others behind it. -/
def scaleIdentity (factor stride : Nat) (f : Func) (i : InstId) :
    Except Fault (Func × InstId × List InstId) := do
  let inst ← f.inst i
  let name := inst.name
  let span := Int64.ofNat factor * Int64.ofNat stride
  let (f, div) ← f.insertAfter i (.binary .udiv (.inst i) (.ofNat stride)) inst.ty
    (suffixed name ".div")
  let (f, mul) ← f.insertAfter div (.binary .mul (.inst div) (.const span)) inst.ty
    (suffixed name ".mul")
  let (f, rem) ← f.insertAfter mul (.binary .urem (.inst i) (.ofNat stride)) inst.ty
    (suffixed name ".rem")
  let (f, base) ← f.insertAfter rem (.binary .add (.inst mul) (.inst rem)) inst.ty
    (suffixed name ".base")
  let (f, _) ← f.replaceUsesExcept i (.inst base) [div, rem]
  let (f, siblings) ← addSiblings base inst.ty name stride f base 1 (factor - 1)
  return (f, base, siblings)

/-- Scales the reads of identities; the others are replicas of the read and of the first. -/
def scaleIdentities (factor stride : Nat) (f : Func) (map : ReplicaMap) :
    List InstId → Except Fault (Func × ReplicaMap)
  | [] => .ok (f, map)
  | i :: rest => do
    let (f, base, siblings) ← scaleIdentity factor stride f i
    scaleIdentities factor stride f ((map.insert base siblings).insert i siblings) rest

/-- Lets a function see the logical launch. -/
def scaleGrid (f : Func) (grid : GridReads) (p : CoarseningParams) :
    Except Fault (Except CoarseningError (Func × ReplicaMap)) := do
  match p.error? with
  | some e => return .error e
  | none =>
    let f ← (grid.extents p.level p.dim).foldlM (scaleExtent p.factor) f
    return .ok (← scaleIdentities p.factor p.stride f .empty (grid.identities p.level p.dim))

end Func

end KernelCoarsening
