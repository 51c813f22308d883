/-
Repetition of divergent code.

A divergent instruction outside all regions is repeated in place, right behind
itself.  A region is repeated as a whole, and the copies follow each other:
control runs through the region, then through its first copy, and so on.  Inside
copy `k` an operand with replicas becomes its replica `k`; a divergent operand
whose replicas do not exist yet becomes a placeholder, which is replaced in the
end.
-/
import KernelCoarsening.Ir.Copy
import KernelCoarsening.Coarsening.Error
import KernelCoarsening.Coarsening.Replica
import KernelCoarsening.Divergence.Analysis

namespace KernelCoarsening

/-- What a repetition did. -/
structure ReplicationStats where
  instructions : Nat
  regions : Nat
  placeholders : Nat
  /-- Placeholders that stand for nothing. -/
  unresolved : Nat
  deriving DecidableEq

/-- A repetition under way: what is divergent, how often it is to be there in the end, and
what has been done. -/
structure Replication where
  divergence : Divergence
  factor : Nat
  func : Func
  map : ReplicaMap
  placeholders : Placeholders
  stats : ReplicationStats

namespace Replication

/-- A repetition that has not begun; `map` knows the replicas of identities. -/
def start (divergence : Divergence) (factor : Nat) (func : Func) (map : ReplicaMap) :
    Replication :=
  { divergence, factor, func, map, placeholders := .empty, stats := ⟨0, 0, 0, 0⟩ }

/-- The number of replicas of a value. -/
def replicas (s : Replication) : Nat := s.factor - 1

/-- The ending of the names of the replicas at a place. -/
def replicaSuffix (n : Nat) : String := ".cf" ++ toString (n + 2)

/-! ### Operands -/

/-- Adds copies of an instruction behind another, each behind the one before, from place `n`
on, `count` in number. -/
def chainCopies (i : InstId) (name suffix : String) (f : Func) (behind : InstId) (n : Nat) :
    Nat → Except Fault (Func × List InstId)
  | 0 => .ok (f, [])
  | count + 1 => do
    let (f, copy) ← f.copyInst i (suffixed name (suffix ++ replicaSuffix n))
    let f ← f.attachAfter behind copy
    let (f, copies) ← chainCopies i name suffix f copy (n + 1) count
    return (f, copy :: copies)

/-- Gives a value its placeholders. -/
def addPlaceholders (s : Replication) (i : InstId) : Except Fault Replication := do
  let inst ← s.func.inst i
  let (func, list) ← chainCopies i inst.name ".place.holder" s.func i 0 s.replicas
  return { s with
    func
    placeholders := s.placeholders.insert i list
    stats := { s.stats with placeholders := s.stats.placeholders + list.length } }

/-- Gives a value placeholders if it is divergent and has neither replicas nor
placeholders. -/
def ensurePlaceholders (s : Replication) (i : InstId) : Except Fault Replication :=
  if s.map.contains i || !s.divergence.isDivergent i || (s.placeholders.get? i).isSome then .ok s
  else s.addPlaceholders i

/-- The operand that replica `n` of an instruction reads in place of another.  A replica does
not read itself or a sibling. -/
def operandAt (s : Replication) (user : InstId) (n : Nat) : Value → Value
  | .inst i =>
    match s.map.get? i with
    | some replicas =>
      match replicas[n]? with
      | some replica =>
        if replica = user || replicas.contains user then .inst i else .inst replica
      | none => .inst i
    | none =>
      if s.divergence.isDivergent i then
        match (s.placeholders.get? i).bind (·[n]?) with
        | some placeholder => .inst placeholder
        | none => .inst i
      else .inst i
  | v => v

/-- Lets an instruction read what replica `n` reads, unless it has replicas itself. -/
def rewire (n : Nat) (s : Replication) (i : InstId) : Except Fault Replication := do
  if s.map.contains i then
    return s
  let s ← (← s.func.operation i).usedInsts.foldlM ensurePlaceholders s
  return { s with func := ← s.func.modifyOperation i (·.mapOperands (s.operandAt i n)) }

/-! ### Instructions -/

/-- Adds the replicas of an instruction behind another, each behind the one before, from
place `n` on, `count` in number. -/
def chainReplicas (i : InstId) (name : String) (s : Replication) (behind : InstId) (n : Nat) :
    Nat → Except Fault (Replication × List InstId)
  | 0 => .ok (s, [])
  | count + 1 => do
    let (func, copy) ← s.func.copyInst i (suffixed name (replicaSuffix n))
    let s ← rewire n { s with func } copy
    let func ← s.func.attachAfter behind copy
    let (s, copies) ← chainReplicas i name { s with func } copy (n + 1) count
    return (s, copy :: copies)

/-- Repeats an instruction in place.  Terminators are repeated with their region only. -/
def replicateInst (s : Replication) (i : InstId) : Except Fault Replication := do
  let inst ← s.func.inst i
  if inst.op.isTerminator then
    return s
  let (s, copies) ← chainReplicas i inst.name s i 0 s.replicas
  return { s with
    map := s.map.insert i copies
    placeholders := s.placeholders.record i copies
    stats := { s.stats with instructions := s.stats.instructions + 1 } }

/-! ### Regions -/

/-- Copies the blocks of a region, from place `n` on, `count` times. -/
def copyRegion (region : Region) (f : Func) (n : Nat) :
    Nat → Except Fault (Func × List BlockCopy)
  | 0 => .ok (f, [])
  | count + 1 => do
    let (f, copy) ← f.copyBlocks region.blocks (replicaSuffix n)
    let (f, copies) ← copyRegion region f (n + 1) count
    return (f, copy :: copies)

/-- Where the copies of a region go: behind `top`, before `bottom`; the region is entered
from `entry`, and `held` are the placeholders that were copied with it. -/
structure Splice where
  region : Region
  entry : BlockId
  bottom : BlockId
  held : List InstId

/-- Puts a copy of a region behind the block `top` and returns the block to continue from.
Copied placeholders go, and operands become those of replica `n`. -/
def spliceCopy (splice : Splice) (n : Nat) (s : Replication) (top : BlockId) (copy : BlockCopy) :
    Except Fault (Replication × BlockId) := do
  let some header := copy.blockMap.get? splice.region.header | return (s, top)
  let some exiting := copy.blockMap.get? splice.region.exiting | return (s, top)
  let func ← copy.instMap.foldlM (fun f (copied, new) =>
    if splice.held.contains copied then f.erase new else .ok f) s.func
  let blocks ← copy.blocks.mapM func.block
  let s ← (blocks.flatMap (·.insts)).foldlM (rewire n) { s with func }
  let func ← s.func.replaceSuccessor top splice.bottom header
  let func ← func.renameIncoming header splice.entry top
  let func ← func.renameIncoming splice.bottom top exiting
  return ({ s with func }, exiting)

/-- Puts copies of a region behind each other, from place `n` on. -/
def spliceCopies (splice : Splice) (s : Replication) (top : BlockId) (n : Nat) :
    List BlockCopy → Except Fault Replication
  | [] => .ok s
  | copy :: copies => do
    let (s, top) ← spliceCopy splice n s top copy
    spliceCopies splice s top (n + 1) copies

/-- The copies of a value, of those copies of a region that were put into place. -/
def aliveReplicas (region : Region) (copies : List BlockCopy) (i : InstId) : List InstId :=
  copies.filterMap fun copy => do
    let _ ← copy.blockMap.get? region.header
    let _ ← copy.blockMap.get? region.exiting
    copy.instMap.get? i

/-- Repeats a region between its exiting block and the block behind it.  Its alive values get
their copies as replicas. -/
def replicateRegion (s : Replication) (region : Region) :
    Except Fault (Option CoarseningError × Replication) := do
  let some entry ← region.predecessor? s.func
    | return (some (.noRegionPredecessor s.func.name (← s.func.label region.header)), s)
  let some bottom ← region.exit? s.func
    | return (some (.noRegionExit s.func.name (← s.func.label region.exiting)), s)
  let (func, copies) ← copyRegion region s.func 0 s.replicas
  let splice : Splice := { region, entry, bottom, held := s.placeholders.all }
  let s ← spliceCopies splice { s with func } region.exiting 0 copies
  let alive := region.alive.map fun i => (i, aliveReplicas region copies i)
  return (none, { s with
    map := alive.foldl (fun map (i, list) => map.insert i list) s.map
    placeholders := alive.foldl (fun held (i, list) => held.record i list) s.placeholders
    stats := { s.stats with regions := s.stats.regions + 1 } })

/-- Repeats regions, up to the first error. -/
def replicateRegions (s : Replication) :
    List Region → Except Fault (Option CoarseningError × Replication)
  | [] => .ok (none, s)
  | region :: rest => do
    match ← s.replicateRegion region with
    | (some e, s) => return (some e, s)
    | (none, s) => s.replicateRegions rest

/-- Repeats the divergent instructions outside all regions, then the outermost regions. -/
def replicateAll (s : Replication) : Except Fault (Option CoarseningError × Replication) := do
  let s ← s.divergence.outermostInstructions.foldlM replicateInst s
  s.replicateRegions s.divergence.outermostRegions

/-! ### Placeholders -/

/-- Puts what a placeholder stands for in its place and removes it.  One that stands for
nothing becomes undefined, and one that stands for itself stays. -/
def resolve (s : Replication) (placeholder : InstId) : Except Fault Replication := do
  match s.placeholders.replacement? placeholder with
  | some replica =>
    if replica = placeholder then
      return s
    let (func, _) ← s.func.replaceUses placeholder (.inst replica)
    return { s with func := ← func.erase placeholder }
  | none =>
    let (func, _) ← s.func.replaceUses placeholder .undef
    return { s with
      func := ← func.erase placeholder
      stats := { s.stats with unresolved := s.stats.unresolved + 1 } }

/-- Puts what the placeholders stand for in their place. -/
def resolveAll (s : Replication) : Except Fault Replication :=
  s.placeholders.all.foldlM resolve s

end Replication

end KernelCoarsening
