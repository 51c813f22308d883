/-
Regions in a form that can be repeated.

Copies of a region go between its exiting block and the block behind it.  To make
room for them, the header of a region is cut before its branch, unless it heads a
loop, and the exiting block behind its phis.  If the exiting block can be reached
from outside the region, the region gets an exiting block of its own, which takes
over its part of the phis.

Design notes: an error stops the work, and what has been done until then stays
done; therefore the functions here return the error beside the function.
-/
import KernelCoarsening.Ir.Copy
import KernelCoarsening.Divergence.Region

namespace KernelCoarsening

namespace Func

/-- Divides a phi of an exiting block between the block and the one before it that only the
region leads to: `members` are the blocks of the region, `jump` ends the new block. -/
def dividePhi (members : List BlockId) (extracted : BlockId) (jump : InstId) (f : Func)
    (phi : InstId) : Except Fault Func := do
  let inst ← f.inst phi
  let .phi incoming := inst.op | return f
  let (inside, outside) := incoming.partition fun (_, b) => members.contains b
  let (f, inner) ← f.insertBefore jump (.phi inside) inst.ty (suffixed inst.name ".new_exiting")
  let (f, outer) ← f.insertBefore phi (.phi (outside ++ [(.inst inner, extracted)])) inst.ty
    (suffixed inst.name ".old_exiting")
  let (f, _) ← f.replaceUses phi (.inst outer)
  f.erase phi

/-- Gives a region an exiting block of its own if its header does not dominate the present
one. -/
def isolate (f : Func) (region : Region) : Except Fault (Func × Region) := do
  let exiting := region.exiting
  let dom := f.dominators (← f.graph)
  if dom.dominates region.header exiting then
    return (f, region)
  let label ← f.label exiting
  let (f, extracted) := f.addBlockBefore exiting (suffixed label ".extracted")
  let (f, jump) ← f.append extracted (.jump exiting) .void ""
  let f ← region.blocks.foldlM (fun f b => f.replaceSuccessor b exiting extracted) f
  let f ← (← f.phis exiting).foldlM (dividePhi region.blocks extracted jump) f
  return (f, { region with exiting := extracted })

/-- Cuts the header of a region before its branch, unless it heads a loop. -/
def cutHeader (f : Func) (loops : LoopForest) (header : BlockId) :
    Except Fault (Func × BlockId) := do
  if loops.isHeader header then
    return (f, header)
  else
    let block ← f.block header
    f.splitBlock header (block.insts.length - 1) (suffixed (← f.label header) ".split")

/-- Cuts an exiting block behind its phis. -/
def cutExiting (f : Func) (exiting : BlockId) : Except Fault (Func × BlockId) := do
  f.splitBlock exiting (← f.firstNonPhi exiting) (suffixed (← f.label exiting) ".split")

/-- Brings the region at a place into form.  Regions that started at the exiting block now
start behind its phis. -/
def extractRegion (f : Func) (regions : List Region) (n : Nat) (region : Region) :
    Except Fault (Option RegionError × Func × List Region) := do
  let flow ← f.flow
  let header := region.header
  match ← Region.exitingFor f flow header with
  | .error e => return (some e, f, regions)
  | .ok exiting =>
    let (f, newHeader) ← f.cutHeader flow.loops header
    let (f, behind) ← f.cutExiting exiting
    let regions := (regions.set n { region with header := newHeader, exiting }).map fun r =>
      if r.header = exiting then { r with header := behind } else r
    match regions[n]? with
    | none => return (none, f, regions)
    | some region =>
      let (f, region) ← f.isolate (← region.fill f)
      return (none, f, regions.set n (← region.analyze f))

/-- Brings the regions at places into form, up to the first error. -/
def extractPlaces (f : Func) (regions : List Region) :
    List Nat → Except Fault (Option RegionError × Func × List Region)
  | [] => .ok (none, f, regions)
  | n :: rest =>
    match regions[n]? with
    | none => f.extractPlaces regions rest
    | some region => do
      match ← f.extractRegion regions n region with
      | (some e, f, regions) => return (some e, f, regions)
      | (none, f, regions) => f.extractPlaces regions rest

/-- Brings regions into form, one after the other, up to the first error. -/
def extractRegions (f : Func) (regions : List Region) :
    Except Fault (Option RegionError × Func × List Region) :=
  f.extractPlaces regions (List.range regions.length)

end Func

end KernelCoarsening
