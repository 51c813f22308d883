/-
Phis and the blocks that control comes from.

The phis of a block name the blocks that lead to it, as far as control comes to them.  When control
is sent through a part of a function that it did not come to before, phis have to name other blocks:

* `Func.Comes`, `Func.Names`, `Func.Matches` — where control comes, what phis name, and that they
  name what they should;
* `Func.matches_iff` — this is what is asked of the phis of a function without flaws;
* `Graft`, `Graft.Loose`, `Graft.Put` — a part that control does not come to, and what is done to let
  control go through it, between a block and the one behind it;
* `Graft.Put.matches_iff` — phis match afterwards exactly if they did before and those of the part
  fit.
-/
import KernelCoarsening.Proofs.Ir.Duplication
import KernelCoarsening.Proofs.Ir.Flawless
import Mathlib.Logic.Relation

namespace KernelCoarsening

namespace Operation

/-- The blocks that a phi names. -/
def names? : Operation → Option (List BlockId)
  | phi incoming => some (incoming.map (·.2))
  | _ => none

@[simp] theorem names?_mapOperands (k : Value → Value) (op : Operation) :
    (op.mapOperands k).names? = op.names? := by
  cases op <;> simp [mapOperands, names?]

@[simp] theorem names?_mapSuccessors (k : BlockId → BlockId) (op : Operation) :
    (op.mapSuccessors k).names? = op.names? := by
  cases op <;> rfl

@[simp] theorem names?_mapIncoming (k : BlockId → BlockId) (op : Operation) :
    (op.mapIncoming k).names? = op.names?.map (List.map k) := by
  cases op <;> simp [mapIncoming, names?]

/-- What is named when one block is named in the place of another. -/
theorem mem_map_redirect {old new p : BlockId} {names : List BlockId} :
    p ∈ names.map (redirect old new) ↔ (p ∈ names ∧ p ≠ old) ∨ (p = new ∧ old ∈ names) := by
  rw [List.mem_map]
  constructor
  · rintro ⟨q, hq, rfl⟩
    by_cases same : q = old
    · subst same
      simp [redirect, hq]
    · simp [redirect, same, hq]
  · rintro (⟨hp, other⟩ | ⟨rfl, here⟩)
    · exact ⟨p, hp, by simp [redirect, other]⟩
    · exact ⟨old, here, by simp [redirect]⟩

end Operation

namespace Func

variable {f : Func} {g : Graph} {b c : BlockId} {i : InstId} {names : List BlockId}

/-- The blocks that an instruction names, if it is a phi. -/
def namesOf (f : Func) (i : InstId) : Option (List BlockId) := (f.line i).bind (·.1.names?)

/-- A phi of a block names some blocks. -/
def Names (f : Func) (b : BlockId) (names : List BlockId) : Prop :=
  ∃ i ∈ f.code b, f.namesOf i = some names

/-- Control can go from one block to another. -/
def Goes (f : Func) : BlockId → BlockId → Prop :=
  Relation.ReflTransGen fun b c => c ∈ f.leads b

/-- Control comes to a block. -/
def Comes (f : Func) (b : BlockId) : Prop := f.Goes f.entry b

/-- The phis of blocks that control comes to name, of the blocks that control comes to, those that
lead to them. -/
def Matches (f : Func) : Prop :=
  ∀ b names, f.Names b names → f.Comes b → ∀ p, f.Comes p → (p ∈ names ↔ b ∈ f.leads p)

theorem namesOf_eq_some_iff :
    f.namesOf i = some names ↔ ∃ incoming ty, f.line i = some (.phi incoming, ty) ∧
      names = incoming.map (·.2) := by
  rw [namesOf]
  constructor
  · intro h
    obtain ⟨⟨op, ty⟩, line, named⟩ := Option.bind_eq_some_iff.mp h
    cases op <;> simp only [Operation.names?, reduceCtorEq, Option.some.injEq] at named
    exact ⟨_, ty, line, named.symm⟩
  · rintro ⟨incoming, ty, line, rfl⟩
    simp [line, Operation.names?]

/-- Where control goes is where the graph leads. -/
theorem reaches_iff_goes (hf : f.Consistent) (hg : f.graph = .ok g) :
    g.Reaches b.index c.index ↔ f.Goes b c := by
  constructor
  · rintro ⟨nodes, p⟩
    generalize hu : b.index = u, hv : c.index = v at p
    induction p generalizing b with
    | stay v =>
      obtain rfl : b = c := BlockId.index_inj.mp (hu.trans hv.symm)
      exact .refl
    | @go u v w nodes edge _ ih =>
      subst hu
      exact .head ((hf.mem_next hg (c := ⟨v⟩)).mp edge) (ih rfl hv)
  · intro goes
    induction goes with
    | refl => exact ⟨_, .stay _⟩
    | tail _ edge ih =>
      obtain ⟨nodes, p⟩ := ih
      exact ⟨_, p.append (.go ((hf.mem_next hg).mpr edge) (.stay _))⟩

theorem matches_iff (hf : f.Consistent) (hg : f.graph = .ok g) : f.PhisMatch g ↔ f.Matches := by
  have comes : ∀ b : BlockId, g.Reaches f.entry.index b.index ↔ f.Comes b := fun b =>
    reaches_iff_goes hf hg
  constructor
  · rintro phis b names ⟨i, inside, named⟩ here p hp
    obtain ⟨incoming, ty, line, rfl⟩ := namesOf_eq_some_iff.mp named
    rw [← hf.mem_next hg]
    exact phis i b incoming ty (hf.mem_code.mp inside) ((comes b).mpr here) line p ((comes p).mpr hp)
  · intro phis i b incoming ty home here line p hp
    rw [hf.mem_next hg]
    exact phis b _ ⟨i, hf.mem_code.mpr home, namesOf_eq_some_iff.mpr ⟨incoming, ty, line, rfl⟩⟩
      ((comes b).mp here) p ((comes p).mp hp)

end Func

/-- A part of a function that is to be put between a block and the one behind it.  The phis of its
header name the block that the part would be entered from. -/
structure Graft where
  part : List BlockId
  header : BlockId
  exiting : BlockId
  top : BlockId
  bottom : BlockId
  entry : BlockId

namespace Graft

open Operation (redirect mem_map_redirect)

variable {x : Graft} {f g : Func} {b p : BlockId} {names : List BlockId}

/-- What the phis of a block come to name. -/
def rename (x : Graft) (b : BlockId) : BlockId → BlockId :=
  if b = x.header then redirect x.entry x.top
  else if b = x.bottom then redirect x.top x.exiting else id

/-- Where another block is named, it is the block before the part or the last one of the part. -/
theorem rename_cases (x : Graft) (b p : BlockId) :
    x.rename b p = p ∨ x.rename b p = x.top ∨ x.rename b p = x.exiting := by
  have each : ∀ old new : BlockId, redirect old new p = p ∨ redirect old new p = new := by
    intro old new
    by_cases here : p = old <;> simp [redirect, here]
  unfold rename
  split
  · exact (each _ _).imp_right .inl
  · split
    · exact (each _ _).imp_right .inr
    · exact .inl rfl

/-- Control does not come to the part, and if it came there it would go through it, from the header
to the exiting block and on to the block behind.  Control goes there now from the block before. -/
structure Loose (x : Graft) (f : Func) : Prop where
  header : x.header ∈ x.part
  exiting : x.exiting ∈ x.part
  top : x.top ∉ x.part
  bottom : x.bottom ∉ x.part
  entry : x.entry ∉ x.part
  start : f.entry ∉ x.part
  found : ∀ b ∈ x.part, f.Goes x.header b
  closed : ∀ b ∈ x.part, b ≠ x.exiting → ∀ c ∈ f.leads b, c ∈ x.part
  leaves : f.leads x.exiting = [x.bottom]
  above : f.leads x.top = [x.bottom]
  comes : f.Comes x.top
  apart : ∀ b, b ∉ x.part → ∀ c ∈ f.leads b, c ∉ x.part
  unnamed : ∀ b, b ∉ x.part → ∀ names, f.Names b names → ∀ p ∈ names, p ∉ x.part
  fresh : ∀ b ∈ x.part, ∀ names, f.Names b names → x.top ∉ names

/-- The part has been put between the two blocks. -/
structure Put (x : Graft) (f g : Func) : Prop where
  entry : g.entry = f.entry
  leads : ∀ b, g.leads b = if b = x.top then [x.header] else f.leads b
  names : ∀ b names, g.Names b names ↔ ∃ old, f.Names b old ∧ names = old.map (x.rename b)

/-- The phis of the part name the block that the part would be entered from in its header, and
otherwise, of the blocks that control comes to and of those of the part, the ones in the part that
lead to them. -/
def Fits (x : Graft) (f : Func) : Prop :=
  ∀ b ∈ x.part, ∀ names, f.Names b names → (b = x.header → x.entry ∈ names) ∧
    (∀ p ∈ names, f.Comes p → b = x.header ∧ p = x.entry) ∧ ∀ p ∈ x.part, (p ∈ names ↔ b ∈ f.leads p)

namespace Loose

variable (loose : x.Loose f)

include loose

theorem not_comes (h : f.Comes b) : b ∉ x.part := by
  induction h with
  | refl => exact loose.start
  | tail _ edge ih => exact loose.apart _ ih _ edge

/-- A block outside that a block of the part leads to is the one behind. -/
theorem leave (hp : p ∈ x.part) (out : b ∉ x.part) : b ∈ f.leads p ↔ p = x.exiting ∧ b = x.bottom := by
  by_cases last : p = x.exiting
  · simp [last, loose.leaves]
  · simp only [last, false_and, iff_false]
    exact fun edge => out (loose.closed p hp last b edge)

end Loose

namespace Put

variable (put : x.Put f g) (loose : x.Loose f)

include put in
theorem leads_of_ne (other : p ≠ x.top) : g.leads p = f.leads p := by
  rw [put.leads, if_neg other]

include put in
theorem leads_top : g.leads x.top = [x.header] := by
  rw [put.leads, if_pos rfl]

include put loose

/-- Inside the part control goes as it did. -/
theorem goes_inside (hb : b ∈ x.part) : g.Goes x.header b := by
  have goes := loose.found b hb
  induction goes with
  | refl => exact .refl
  | @tail b c _ edge ih =>
    -- what leads into the part is in the part
    have inside : b ∈ x.part := by
      by_contra out
      exact loose.apart b out c edge hb
    refine (ih inside).tail ?_
    rwa [put.leads_of_ne fun same => loose.top (same ▸ inside)]

/-- Control comes where it came, and to the part. -/
theorem comes_iff : g.Comes b ↔ f.Comes b ∨ b ∈ x.part := by
  constructor
  · intro h
    induction h with
    | refl => exact .inl (put.entry ▸ .refl)
    | @tail b c _ edge ih =>
      by_cases last : b = x.top
      · subst last
        obtain rfl : c = x.header := by simpa [put.leads_top] using edge
        exact .inr loose.header
      · rw [put.leads_of_ne last] at edge
        rcases ih with comes | inside
        · exact .inl (comes.tail edge)
        · by_cases out : c ∈ x.part
          · exact .inr out
          · obtain ⟨-, rfl⟩ := (loose.leave inside out).mp edge
            exact .inl (loose.comes.tail (loose.above ▸ List.mem_singleton_self _))
  · -- control comes to the block before, from there through the part, and so to the block behind
    have old : ∀ b, f.Comes b → g.Comes b ∧ (b = x.top → ∀ c ∈ x.part, g.Comes c) := by
      intro b comes
      induction comes with
      | refl =>
        refine ⟨put.entry ▸ .refl, fun same c hc => ?_⟩
        have start : g.Comes x.top := by rw [← same, ← put.entry]; exact .refl
        exact (start.tail (put.leads_top ▸ List.mem_singleton_self _)).trans
          (put.goes_inside loose hc)
      | @tail b c _ edge ih =>
        obtain ⟨comes, through⟩ := ih
        have here : g.Comes c := by
          by_cases last : b = x.top
          · obtain rfl : c = x.bottom := by simpa [last, loose.above] using edge
            refine (through last _ loose.exiting).tail ?_
            rw [put.leads_of_ne fun same => loose.top (same ▸ loose.exiting), loose.leaves]
            exact List.mem_singleton_self _
          · exact comes.tail (by rwa [put.leads_of_ne last])
        refine ⟨here, fun same d hd => ?_⟩
        subst same
        exact (here.tail (put.leads_top ▸ List.mem_singleton_self _)).trans
          (put.goes_inside loose hd)
    rintro (comes | inside)
    · exact (old b comes).1
    · exact (old _ loose.comes).2 rfl b inside

/-- Outside the part a phi matches if it did. -/
theorem match_outside (out : b ∉ x.part) (named : f.Names b names) :
    (∀ p, g.Comes p → (p ∈ names.map (x.rename b) ↔ b ∈ g.leads p)) ↔
      ∀ p, f.Comes p → (p ∈ names ↔ b ∈ f.leads p) := by
  have unnamed := loose.unnamed b out names named
  have no_header : b ≠ x.header := fun same => out (same ▸ loose.header)
  have ne_top : ∀ p ∈ x.part, p ≠ x.top := fun p hp same => loose.top (same ▸ hp)
  have from_top : b ∉ g.leads x.top := by simpa [put.leads_top] using no_header
  by_cases behind : b = x.bottom
  · have rename : x.rename b = redirect x.top x.exiting := by
      rw [Graft.rename, if_neg no_header, if_pos behind]
    simp only [rename, mem_map_redirect]
    have exit : b ∈ g.leads x.exiting := by
      rw [put.leads_of_ne (ne_top _ loose.exiting), loose.leaves, behind]
      exact List.mem_singleton_self _
    constructor
    · intro all p comes
      have away := loose.not_comes comes
      by_cases last : p = x.top
      · -- the phi names the block before, since it now names the last one of the part
        subst last
        have named := (all x.exiting ((put.comes_iff loose).mpr (.inr loose.exiting))).mpr exit
        have : x.top ∈ names := by
          rcases named with ⟨named, -⟩ | ⟨-, named⟩
          · exact absurd loose.exiting (unnamed _ named)
          · exact named
        simp [this, loose.above, behind]
      · rw [← put.leads_of_ne last, ← all p ((put.comes_iff loose).mpr (.inl comes))]
        have : p ≠ x.exiting := fun same => away (same ▸ loose.exiting)
        simp [last, this]
    · intro all p comes
      rcases (put.comes_iff loose).mp comes with comes | inside
      · have away : p ≠ x.exiting := fun same => loose.not_comes comes (same ▸ loose.exiting)
        by_cases last : p = x.top
        · subst last
          simp [away, from_top]
        · rw [put.leads_of_ne last, ← all p comes]
          simp [last, away]
      · have top : x.top ∈ names := (all x.top loose.comes).mpr (by simp [loose.above, behind])
        have none : p ∉ names := fun mem => unnamed p mem inside
        rw [put.leads_of_ne (ne_top p inside), loose.leave inside out]
        simp [none, top, behind]
  · have rename : x.rename b = id := by simp [rename, no_header, behind]
    simp only [rename, List.map_id]
    have from_top' : b ∉ f.leads x.top := by simpa [loose.above] using behind
    have edges : ∀ p, b ∈ g.leads p ↔ b ∈ f.leads p := by
      intro p
      by_cases last : p = x.top
      · simp [last, from_top, from_top']
      · rw [put.leads_of_ne last]
    simp only [edges]
    refine ⟨fun all p comes => all p ((put.comes_iff loose).mpr (.inl comes)), fun all p comes => ?_⟩
    rcases (put.comes_iff loose).mp comes with comes | inside
    · exact all p comes
    · have none : p ∉ names := fun mem => unnamed p mem inside
      simp [none, loose.leave inside out, behind]

/-- A phi of the part matches if it fits. -/
theorem match_inside (inside : b ∈ x.part) (named : f.Names b names) :
    (∀ p, g.Comes p → (p ∈ names.map (x.rename b) ↔ b ∈ g.leads p)) ↔
      (b = x.header → x.entry ∈ names) ∧ (∀ p ∈ names, f.Comes p → b = x.header ∧ p = x.entry) ∧
        ∀ p ∈ x.part, (p ∈ names ↔ b ∈ f.leads p) := by
  have fresh := loose.fresh b inside names named
  have ne_top : ∀ p ∈ x.part, p ≠ x.top := fun p hp same => loose.top (same ▸ hp)
  have no_bottom : b ≠ x.bottom := fun same => loose.bottom (same ▸ inside)
  -- of the blocks that control came to, only the one before the part leads to it, to its header
  have edges : ∀ p, f.Comes p → (b ∈ g.leads p ↔ b = x.header ∧ p = x.top) := by
    intro p comes
    by_cases last : p = x.top
    · simp [last, put.leads_top]
    · rw [put.leads_of_ne last]
      simp only [last, and_false, iff_false]
      exact fun edge => loose.apart p (loose.not_comes comes) b edge inside
  -- what the phi comes to name
  have mem : ∀ p, p ∈ names.map (x.rename b) ↔
      (p ∈ names ∧ ¬ (b = x.header ∧ p = x.entry)) ∨ (b = x.header ∧ p = x.top ∧ x.entry ∈ names) := by
    intro p
    by_cases first : b = x.header
    · simp [rename, first, mem_map_redirect]
    · simp [rename, first, no_bottom]
  have part : ∀ p ∈ x.part, (p ∈ names.map (x.rename b) ↔ p ∈ names) ∧ g.leads p = f.leads p := by
    intro p hp
    have away : p ≠ x.entry := fun same => loose.entry (same ▸ hp)
    exact ⟨by simp [mem, away, ne_top p hp], put.leads_of_ne (ne_top p hp)⟩
  constructor
  · intro all
    have old : ∀ p, f.Comes p → (p ∈ names.map (x.rename b) ↔ b = x.header ∧ p = x.top) :=
      fun p comes => (all p ((put.comes_iff loose).mpr (.inl comes))).trans (edges p comes)
    refine ⟨fun first => ?_, fun p hp comes => ?_, fun p hp => ?_⟩
    · have named := (old x.top loose.comes).mpr ⟨first, rfl⟩
      rw [mem] at named
      exact named.elim (fun h => absurd h.1 fresh) (·.2.2)
    · by_contra other
      obtain ⟨-, rfl⟩ := (old p comes).mp ((mem p).mpr (.inl ⟨hp, other⟩))
      exact fresh hp
    · have := all p ((put.comes_iff loose).mpr (.inr hp))
      rwa [(part p hp).1, (part p hp).2] at this
  · rintro ⟨first, foreign, own⟩ p comes
    rcases (put.comes_iff loose).mp comes with comes | hp
    · rw [mem, edges p comes]
      constructor
      · rintro (⟨hp, other⟩ | ⟨here, last, -⟩)
        · exact absurd (foreign p hp comes) other
        · exact ⟨here, last⟩
      · rintro ⟨here, last⟩
        exact .inr ⟨here, last, first here⟩
    · rw [(part p hp).1, (part p hp).2]
      exact own p hp

/-- Phis match when the part has been put between the blocks exactly if they matched before and those
of the part fit. -/
theorem matches_iff : g.Matches ↔ f.Matches ∧ x.Fits f := by
  constructor
  · intro all
    refine ⟨fun b names named comes => ?_, fun b inside names named => ?_⟩
    · refine (put.match_outside loose (loose.not_comes comes) named).mp fun p => ?_
      exact all b _ ((put.names b _).mpr ⟨names, named, rfl⟩)
        ((put.comes_iff loose).mpr (.inl comes)) p
    · refine (put.match_inside loose inside named).mp fun p => ?_
      exact all b _ ((put.names b _).mpr ⟨names, named, rfl⟩)
        ((put.comes_iff loose).mpr (.inr inside)) p
  · rintro ⟨all, fits⟩ b names named comes
    obtain ⟨old, before, rfl⟩ := (put.names b names).mp named
    rcases (put.comes_iff loose).mp comes with comes | inside
    · exact (put.match_outside loose (loose.not_comes comes) before).mpr (all b old before comes)
    · exact (put.match_inside loose inside before).mpr (fits b inside old before)

end Put

end Graft

end KernelCoarsening
