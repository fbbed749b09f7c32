import Teptris.Emit.FlatBuffered
import Teptris.Emit.WriterLost

/-!
# Output under allocation failure

What the emitters, the flattener and the writer hand over when any of their allocations may fail.
Each looks at the status of its buffer, and each writes to the buffer behind its last look: the
emitters the terminator, the flattener the last payload, the writer everything.
-/

namespace Teptris

open GrowBuf

/-- With `TEPTRIS_OK` comes the whole output exactly where the requests behind the last look at the
status are granted: the terminator of the emitters, where the text fills its buffer; whatever the
flattener writes behind the last key or string; every request of the output buffer of the
writer, and its root frame. -/
theorem output_whole_iff (fc : FloatConv) (a c : Pattern) (root : Node) (chunks : List Bytes) :
    (Whole (emitDocumentTo fc a root) (emitDocumentTo fc always root) ↔
      TerminatorFits a (requestsOf fun a b => emitRootTo fc a b root) (emitDocument fc root)) ∧
    (Whole (emitDocumentJsonTo fc a root) (emitDocumentJsonTo fc always root) ↔
      TerminatorFits a (requestsOf fun a b => jsonTreeTo a (jsonScalarTo fc a) b root)
        (emitJsonValue fc root)) ∧
    (Whole (emitDocumentJsonNaturalTo fc a root) (emitDocumentJsonNaturalTo fc always root) ↔
      TerminatorFits a (requestsOf fun a b => jsonTreeTo a (jsonNatScalarTo fc a) b root)
        (emitJsonNatValue fc root)) ∧
    (Whole (flattenTo a root) (flattenTo always root) ↔
      ((∀ i < flattenChecked root, a i = true) → ∀ i < flattenRequests root, a i = true)) ∧
    (Whole (WriterTo.session fc a c chunks) (WriterTo.session fc always always chunks) ↔
      (WriterTo.Accepted fc a c chunks → WriterTo.NothingLost fc a c chunks)) :=
  ⟨handOver_whole_iff (emits_root fc root) a, handOver_whole_iff (emits_json fc root) a,
    handOver_whole_iff (emits_jsonNatural fc root) a, flattenTo_whole_iff a root,
    WriterTo.session_whole_iff⟩

/-- A flattened empty document whose only request is refused is a null pointer, and the writer's
text of `a = false` is empty when its buffer is refused; both come with `TEPTRIS_OK`. -/
theorem output_lost :
    ¬ Whole (flattenTo (fun _ => false) (.table .explicit []))
      (flattenTo always (.table .explicit [])) ∧
    ¬ Whole (WriterTo.session .zero (fun _ => false) always [[0x01, 1, 0x61, 0x05]])
      (WriterTo.session .zero always always [[0x01, 1, 0x61, 0x05]]) := by
  constructor
  · intro hwhole
    exact absurd (hwhole (none, 0) rfl).1 (by decide)
  · intro hwhole
    have htext : WriterTo.session .zero always always [[0x01, 1, 0x61, 0x05]] =
        .ok (some [0], 0) := (hwhole _ rfl).2
    have hwritten : WriterTo.session .zero always always [[0x01, 1, 0x61, 0x05]] =
        .ok (some [0x61, 0x20, 0x3D, 0x20, 0x66, 0x61, 0x6C, 0x73, 0x65, Ch.lf, 0], 10) := rfl
    rw [hwritten] at htext
    simp at htext

end Teptris
