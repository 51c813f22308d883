/-
Program files are read back.

A record is written as an object with its fields in order and an alternative as its tag; the reader
finds every field and every tag again.  Handles, positions and lengths are written as numbers, and
the reader takes numbers of 32 bits:

* `Json.record_obj` — a record that lists its fields is read as their values;
* `Program.InWords` — the numbers of a program have 32 bits;
* `Program.decode_encode` — such a program is read back from its description;
* `Program.plain_encode` — a description has a text that is read back;
* `Program.ofFileText_written` — so a program is read back from its file.
-/
import KernelCoarsening.ProgramFile.Decode
import KernelCoarsening.ProgramFile.Encode
import KernelCoarsening.Proofs.Json.RoundTrip

namespace KernelCoarsening

/-! ### Records, lists and options -/

namespace Json

/-- In an object that names its keys once, a key has one member. -/
theorem filter_key {members : List (String × Json)} (once : (members.map (·.1)).Nodup)
    {m : String × Json} (mem : m ∈ members) : members.filter (·.1 == m.1) = [m] := by
  induction members with
  | nil => simp at mem
  | cons n members ih =>
    obtain ⟨new, once⟩ := List.nodup_cons.mp once
    rcases List.mem_cons.mp mem with rfl | mem
    · have others : members.filter (·.1 == m.1) = [] := by
        refine List.filter_eq_nil_iff.mpr fun n hn same => new ?_
        exact List.mem_map.mpr ⟨n, hn, beq_iff_eq.mp same⟩
      simp [others]
    · have other : (n.1 == m.1) = false := by
        refine beq_eq_false_iff_ne.mpr fun same => new ?_
        exact List.mem_map.mpr ⟨m, mem, same.symm⟩
      simp [other, ih once mem]

/-- A record that lists its fields in order is read as their values. -/
theorem record_obj {fields : List Field} {members : List (String × Json)}
    (keys : fields.map (·.key) = members.map (·.1)) (once : (fields.map (·.key)).Nodup) :
    (obj members).record fields = some (members.map (·.2)) := by
  rw [keys] at once
  have each : ∀ (fields : List Field) (some' : List (String × Json)),
      fields.map (·.key) = some'.map (·.1) → (∀ m ∈ some', m ∈ members) →
        (obj members).record fields = some (some'.map (·.2)) := by
    intro fields
    induction fields with
    | nil =>
      intro some' keys _
      obtain rfl : some' = [] := by simpa using keys.symm
      rfl
    | cons field fields ih =>
      intro some' keys inside
      cases some' with
      | nil => simp at keys
      | cons m some' =>
        obtain ⟨key, keys⟩ := List.cons.inj keys
        have rest := ih some' keys fun n hn => inside n (List.mem_cons_of_mem _ hn)
        have found := filter_key once (inside m (by simp))
        simp only [record] at rest
        simp only [record, List.mapM_cons, key, found, rest, Option.bind_eq_bind, Option.bind_some]
        rfl
  exact each fields members keys fun _ mem => mem

variable {α : Type} {write : α → Json} {read : Json → Option α}

theorem list?_list {items : List α} (each : ∀ a ∈ items, read (write a) = some a) :
    (list write items).list? read = some items := by
  have all : (items.map write).mapM read = some items := by
    induction items with
    | nil => rfl
    | cons a items ih =>
      have rest := ih fun b hb => each b (List.mem_cons_of_mem _ hb)
      simp [each a (by simp), rest]
  simpa [list?, list, arr?] using all

theorem option?_option {o : Option α} (each : ∀ a ∈ o, read (write a) = some a)
    (given : ∀ a, write a ≠ null) : (option write o).option? read = some o := by
  cases o with
  | none => rfl
  | some a =>
    have value : (write a).option? read = some <$> read (write a) := by
      cases hv : write a with
      | null => exact absurd hv (given a)
      | _ => rfl
    rw [option, value, each a rfl]
    rfl

theorem plain_list {items : List α} (each : ∀ a, (write a).Plain) : (list write items).Plain := by
  refine .arr fun v hv => ?_
  obtain ⟨a, -, rfl⟩ := List.mem_map.mp hv
  exact each a

theorem plain_option {o : Option α} (each : ∀ a, (write a).Plain) : (option write o).Plain := by
  cases o with
  | none => exact .null
  | some a => exact each a

theorem plain_tagged {tag : String} {content : Json} (plain : content.Plain) :
    (tagged tag content).Plain := .obj (by simpa using plain)

theorem word?_nat {n : Nat} (small : n < limit32) : (nat n).word? = some n := by
  simp [nat, word?, natBelow?, small]

@[simp] theorem int64?_int (c : Int64) : (int c.toInt).int64? = some c := by
  simp [int64?]

end Json

/-! ### Numbers of 32 bits -/

/-- The numbers of an operand have 32 bits. -/
def Value.InWords : Value → Prop
  | inst i => i.index < limit32
  | arg n => n < limit32
  | global g => g.index < limit32
  | const _ | undef => True

instance : DecidablePred Value.InWords
  | .inst i => inferInstanceAs (Decidable (i.index < limit32))
  | .arg n => inferInstanceAs (Decidable (n < limit32))
  | .global g => inferInstanceAs (Decidable (g.index < limit32))
  | .const _ | .undef => inferInstanceAs (Decidable True)

/-- The blocks that a phi names. -/
def Operation.sources : Operation → List BlockId
  | phi incoming => incoming.map (·.2)
  | _ => []

/-- The numbers of an operation have 32 bits. -/
def Operation.InWords (op : Operation) : Prop :=
  (∀ v ∈ op.operands, v.InWords) ∧ ∀ b ∈ op.successors ++ op.sources, b.index < limit32

instance (op : Operation) : Decidable op.InWords :=
  inferInstanceAs (Decidable ((∀ v ∈ op.operands, v.InWords) ∧
    ∀ b ∈ op.successors ++ op.sources, b.index < limit32))

/-- The numbers of a function have 32 bits. -/
def Func.InWords (f : Func) : Prop :=
  (∀ block ∈ f.blocks.toList, ∀ i ∈ block.insts, i.index < limit32) ∧
    (∀ b ∈ f.layout, b.index < limit32) ∧
      ∀ inst ∈ f.insts.toList, inst.op.InWords ∧ ∀ b ∈ inst.block, b.index < limit32

instance (f : Func) : Decidable f.InWords :=
  inferInstanceAs (Decidable ((∀ block ∈ f.blocks.toList, ∀ i ∈ block.insts, i.index < limit32) ∧
    (∀ b ∈ f.layout, b.index < limit32) ∧
      ∀ inst ∈ f.insts.toList, inst.op.InWords ∧ ∀ b ∈ inst.block, b.index < limit32))

/-- The numbers of a program have 32 bits. -/
def Program.InWords (p : Program) : Prop :=
  (∀ f ∈ p.functions, f.InWords) ∧ ∀ g ∈ p.globals, g.length < limit32

instance (p : Program) : Decidable p.InWords :=
  inferInstanceAs (Decidable ((∀ f ∈ p.functions, f.InWords) ∧
    ∀ g ∈ p.globals, g.length < limit32))

/-! ### Descriptions are read back -/

theorem BlockId.decode_encode {b : BlockId} (small : b.index < limit32) :
    BlockId.decode b.encode = some b := by
  simp [decode, encode, Json.word?_nat small]

theorem InstId.decode_encode {i : InstId} (small : i.index < limit32) :
    InstId.decode i.encode = some i := by
  simp [decode, encode, Json.word?_nat small]

theorem GlobalId.decode_encode {g : GlobalId} (small : g.index < limit32) :
    GlobalId.decode g.encode = some g := by
  simp [decode, encode, Json.word?_nat small]

@[simp] theorem AddressSpace.decode_encode (s : AddressSpace) : decode s.encode = some s := by
  simp [decode, encode, Json.tag?]

@[simp] theorem Ty.decode_encode (t : Ty) : decode t.encode = some t := by
  cases t with
  | ptr space => simp [decode, encode, Json.tagged, AddressSpace.encode, Json.tag?, Json.tagged?,
      AddressSpace.decode]
  | _ => rfl

theorem Value.decode_encode {v : Value} (words : v.InWords) : decode v.encode = some v := by
  cases v with
  | inst i =>
    have := InstId.decode_encode words
    simp_all [decode, encode, Json.tagged, Json.tag?, Json.tagged?, InstId.encode, Json.nat]
  | arg n =>
    have := Json.word?_nat words
    simp_all [decode, encode, Json.tagged, Json.tag?, Json.tagged?, Json.nat]
  | const c => simp [decode, encode, Json.tagged, Json.tag?, Json.tagged?]
  | global g =>
    have := GlobalId.decode_encode words
    simp_all [decode, encode, Json.tagged, Json.tag?, Json.tagged?, GlobalId.encode, Json.nat]
  | undef => rfl

theorem Value.decodeIncoming_encodeIncoming {entry : Value × BlockId} (words : entry.1.InWords)
    (small : entry.2.index < limit32) :
    decodeIncoming (encodeIncoming entry) = some entry := by
  simp [decodeIncoming, encodeIncoming, decode_encode words, BlockId.decode_encode small]

theorem Value.encode_ne_null (v : Value) : v.encode ≠ .null := by
  cases v <;> simp [encode, Json.tagged]

theorem BlockId.encode_ne_null (b : BlockId) : b.encode ≠ .null := by
  simp [encode, Json.nat]

/-- The fields of an operation may be given by their keys, whatever else is allowed. -/
theorem FieldForm.fields_obj (form : FieldForm) {members : List (String × Json)}
    {fields : List Json.Field} (keys : fields.map (·.key) = members.map (·.1))
    (once : (fields.map (·.key)).Nodup) :
    form.fields (.obj members) fields = some (members.map (·.2)) := by
  rw [← Json.record_obj keys once]
  cases form <;> rfl

/-- An alternative with fields is read from its tag and the object of its fields. -/
theorem Operation.decode_tagged (form : FieldForm) (tag : String) (members : List (String × Json)) :
    decode form (Json.tagged tag (.obj members)) = ofFields? form tag (.obj members) := rfl

theorem Operation.decode_encode (form : FieldForm) {op : Operation} (words : op.InWords) :
    decode form op.encode = some op := by
  obtain ⟨operands, blocks⟩ := words
  have value : ∀ v ∈ op.operands, Value.decode v.encode = some v :=
    fun v hv => Value.decode_encode (operands v hv)
  have block : ∀ b ∈ op.successors ++ op.sources, BlockId.decode b.encode = some b :=
    fun b hb => BlockId.decode_encode (blocks b hb)
  cases op with
  | phi incoming =>
    have entries : (Json.list Value.encodeIncoming incoming).list? Value.decodeIncoming =
        some incoming := by
      refine Json.list?_list fun entry mem => Value.decodeIncoming_encodeIncoming ?_ ?_
      · exact operands entry.1 (List.mem_map_of_mem mem)
      · exact blocks entry.2 (List.mem_append_right _ (List.mem_map_of_mem mem))
    simp [encode, decode_tagged, ofFields?, form.fields_obj, Json.required, entries]
  | call f args =>
    have all : (Json.list Value.encode args).list? Value.decode = some args :=
      Json.list?_list fun v hv => value v hv
    simp [encode, decode_tagged, ofFields?, form.fields_obj, Json.required, Json.str?, all]
  | ret v =>
    have given : (Json.option Value.encode v).option? Value.decode = some v :=
      Json.option?_option (fun w hw => value w (by simpa [Operation.operands] using hw))
        Value.encode_ne_null
    simp [encode, decode_tagged, ofFields?, form.fields_obj, given]
  | unreachable => rfl
  | jump t => simp_all [encode, decode_tagged, ofFields?, form.fields_obj, Json.required, successors]
  | branch c t e =>
    simp_all [encode, decode_tagged, ofFields?, form.fields_obj, Json.required, successors,
      Operation.operands]
  | _ =>
    simp_all [encode, decode_tagged, ofFields?, form.fields_obj, Json.required, Operation.operands,
      BinaryOp.decode, Comparison.decode, Conversion.decode, Json.tag?]

@[simp] theorem Param.decode_encode (p : Param) : decode p.encode = some p := by
  simp [decode, encode, Json.record_obj, Json.required, Json.str?]

theorem Block.decode_encode {block : Block} (small : ∀ i ∈ block.insts, i.index < limit32) :
    decode block.encode = some block := by
  have insts : (Json.list InstId.encode block.insts).list? InstId.decode = some block.insts :=
    Json.list?_list fun i hi => InstId.decode_encode (small i hi)
  simp [decode, encode, Json.record_obj, Json.required, Json.str?, insts]

theorem Inst.decode_encode (form : FieldForm) {inst : Inst} (words : inst.op.InWords)
    (small : ∀ b ∈ inst.block, b.index < limit32) : decode form inst.encode = some inst := by
  have block : (Json.option BlockId.encode inst.block).option? BlockId.decode = some inst.block :=
    Json.option?_option (fun b hb => BlockId.decode_encode (small b hb)) BlockId.encode_ne_null
  simp [decode, encode, Json.record_obj, Json.required, Json.str?, block,
    Operation.decode_encode form words]

theorem Func.decode_encode (form : FieldForm) {f : Func} (words : f.InWords) :
    decode form f.encode = some f := by
  obtain ⟨inBlocks, inLayout, inInsts⟩ := words
  have params : (Json.list Param.encode f.params).list? Param.decode = some f.params :=
    Json.list?_list fun p _ => Param.decode_encode p
  have blocks : (Json.list Block.encode f.blocks.toList).list? Block.decode =
      some f.blocks.toList :=
    Json.list?_list fun block hb => Block.decode_encode (inBlocks block hb)
  have layout : (Json.list BlockId.encode f.layout).list? BlockId.decode = some f.layout :=
    Json.list?_list fun b hb => BlockId.decode_encode (inLayout b hb)
  have insts : (Json.list Inst.encode f.insts.toList).list? (Inst.decode form) =
      some f.insts.toList :=
    Json.list?_list fun inst hi =>
      Inst.decode_encode form (inInsts inst hi).1 (inInsts inst hi).2
  simp [decode, encode, Json.record_obj, Json.required, Json.str?, CallingConvention.decode,
    Json.tag?, params, blocks, layout, insts]

theorem Global.decode_encode {g : Global} (small : g.length < limit32) :
    decode g.encode = some g := by
  simp [decode, encode, Json.record_obj, Json.required, Json.str?, Json.word?_nat small]

@[simp] theorem Annotation.decode_encode (a : Annotation) : decode a.encode = some a := by
  simp [decode, encode, Json.record_obj, Json.required, Json.str?]

/-- A program is read back from its description. -/
theorem Program.decode_encode (form : FieldForm) {p : Program} (words : p.InWords) :
    decode form p.encode = some p := by
  obtain ⟨inFunctions, inGlobals⟩ := words
  have functions : (Json.list Func.encode p.functions).list? (Func.decode form) =
      some p.functions :=
    Json.list?_list fun f hf => Func.decode_encode form (inFunctions f hf)
  have globals : (Json.list Global.encode p.globals).list? Global.decode = some p.globals :=
    Json.list?_list fun g hg => Global.decode_encode (inGlobals g hg)
  have annotations : (Json.list Annotation.encode p.annotations).list? Annotation.decode =
      some p.annotations :=
    Json.list?_list fun a _ => Annotation.decode_encode a
  simp [decode, encode, Json.record_obj, Json.required, Json.str?, functions, globals, annotations]

/-! ### Descriptions have texts -/

theorem BlockId.plain_encode (b : BlockId) : b.encode.Plain := .int _

theorem InstId.plain_encode (i : InstId) : i.encode.Plain := .int _

theorem Ty.plain_encode (t : Ty) : t.encode.Plain := by
  cases t with
  | ptr space => exact Json.plain_tagged (.str _)
  | _ => exact .str _

theorem Value.plain_encode (v : Value) : v.encode.Plain := by
  cases v with
  | undef => exact .str _
  | _ => exact Json.plain_tagged (.int _)

theorem Value.plain_encodeIncoming (entry : Value × BlockId) : (encodeIncoming entry).Plain :=
  .arr (by simp [entry.1.plain_encode, entry.2.plain_encode])

theorem Operation.plain_encode (op : Operation) : op.encode.Plain := by
  cases op with
  | unreachable => exact .str _
  | _ =>
    refine Json.plain_tagged (.obj ?_)
    simp [Json.Plain.str, Value.plain_encode, BlockId.plain_encode, Json.plain_list,
      Json.plain_option, Value.plain_encodeIncoming]

theorem Param.plain_encode (p : Param) : p.encode.Plain :=
  .obj (by simp [Json.Plain.str, Ty.plain_encode])

theorem Block.plain_encode (block : Block) : block.encode.Plain :=
  .obj (by simp [Json.Plain.str, Json.plain_list, InstId.plain_encode])

theorem Inst.plain_encode (inst : Inst) : inst.encode.Plain :=
  .obj (by simp [Json.Plain.str, Operation.plain_encode, Ty.plain_encode, Json.plain_option,
    BlockId.plain_encode])

theorem Func.plain_encode (f : Func) : f.encode.Plain :=
  .obj (by simp [Json.Plain.str, Json.plain_list, Param.plain_encode, Ty.plain_encode,
    Block.plain_encode, BlockId.plain_encode, Inst.plain_encode])

theorem Global.plain_encode (g : Global) : g.encode.Plain :=
  .obj (by simp [Json.Plain.str, Ty.plain_encode, Json.nat, Json.Plain.int, AddressSpace.encode])

theorem Annotation.plain_encode (a : Annotation) : a.encode.Plain :=
  .obj (by simp [Json.Plain.str, Json.Plain.int])

theorem Program.plain_encode (p : Program) : p.encode.Plain :=
  .obj (by simp [Json.Plain.str, Json.plain_list, Func.plain_encode, Global.plain_encode,
    Annotation.plain_encode])

/-! ### Files -/

/-- A text that holds the description of a program and nothing else is read as the program. -/
theorem Program.ofFileText_of_parse? {p : Program} (words : p.InWords) {text : String}
    (parsed : Json.parse? text = some p.encode) : ofFileText text = .ok p := by
  simp only [ofFileText, parsed, decode_encode _ words]

/-- A program is read back from its file, from its text without blanks, and from its description
where that is passed on. -/
theorem Program.ofFileText_written (p : Program) (words : p.InWords) :
    ofFileText p.fileText = .ok p ∧ ofFileText p.encode.compact = .ok p ∧
      ∀ form, decode form p.encode = some p :=
  ⟨ofFileText_of_parse? words p.plain_encode.parse?_pretty,
    ofFileText_of_parse? words p.plain_encode.parse?_compact,
    fun form => decode_encode form words⟩

/-- A program with quotes, backslashes, control characters and letters beyond the first plane in its
names, the ends of the range of constants, a phi, a return without value and with one, and an
instruction that is placed nowhere. -/
def unusualProgram : Program where
  name := "quote \" backslash \\ tab \t bell \x07 null \x00 rubout \x7f"
  target := "nvptx64-😀"
  functions :=
    [{ name := "_Z1fi", params := [⟨"n", .i32⟩, ⟨"", .ptr .shared⟩], returnTy := .i64,
       convention := .kernel
       blocks := #[⟨"entry", [⟨0⟩, ⟨1⟩]⟩, ⟨"", [⟨2⟩]⟩]
       layout := [⟨1⟩, ⟨0⟩]
       insts := #[
         ⟨.phi [(.const Int64.minValue, ⟨1⟩), (.undef, ⟨4294967295⟩)], .i64, "a/b", some ⟨0⟩⟩,
         ⟨.ret (some (.inst ⟨0⟩)), .void, "", some ⟨0⟩⟩,
         ⟨.ret none, .void, "\r\n", some ⟨1⟩⟩,
         ⟨.call "callee" [.arg 4294967295, .const Int64.maxValue, .global ⟨7⟩], .f32, "", none⟩] }]
  globals := [⟨"g", .ptr .generic, 0, .constant⟩]
  annotations := [⟨"_Z1fi", "kernel", -1⟩]

/-- The hypothesis holds of a program that leaves nothing out, which is read back. -/
theorem written_unusualProgram : unusualProgram.InWords ∧
    Program.ofFileText unusualProgram.fileText = .ok unusualProgram := by
  have words : unusualProgram.InWords := by decide
  exact ⟨words, (Program.ofFileText_written unusualProgram words).1⟩

end KernelCoarsening
