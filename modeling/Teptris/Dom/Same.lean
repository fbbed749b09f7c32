import Teptris.Dom.Rounding
import Teptris.Dom.Tree

/-!
# The same tree

Two documents hold the same tree when their scalars are equal, any NaN being equal to any other,
their arrays agree element by element, and their tables are the same maps from keys to values,
whatever the order of the entries and the flags.
-/

namespace Teptris

mutual

/-- Two nodes hold the same tree. -/
def Node.Same : Node → Node → Prop
  | .string s, n => n = .string s
  | .integer i, n => n = .integer i
  | .float f, n => ∃ g, n = .float g ∧ (f = g ∨ f.isNan = true ∧ g.isNan = true)
  | .boolean b, n => n = .boolean b
  | .datetime kind dt, n => n = .datetime kind dt
  | .array _ items, n => ∃ aot items', n = .array aot items' ∧ itemsSame items items'
  | .table _ es, n => ∃ flag es', n = .table flag es' ∧ entriesSame es es' ∧
    ∀ k ∈ es'.map Prod.fst, k ∈ es.map Prod.fst

/-- The elements of two arrays agree. -/
def itemsSame : List Node → List Node → Prop
  | [], ws => ws = []
  | v :: vs, ws => ∃ w ws', ws = w :: ws' ∧ v.Same w ∧ itemsSame vs ws'

/-- What stands under the keys of a table stands under them in another one. -/
def entriesSame : List (Key × Node) → List (Key × Node) → Prop
  | [], _ => True
  | (k, v) :: es, es' => (∃ w, probe k es' = some w ∧ v.Same w) ∧ entriesSame es es'

end

lemma entriesSame_iff {es es' : Entries} :
    entriesSame es es' ↔ ∀ e ∈ es, ∃ w, probe e.1 es' = some w ∧ e.2.Same w := by
  induction es with
  | nil => simp [entriesSame]
  | cons e es ih =>
    obtain ⟨k, v⟩ := e
    simp only [entriesSame, ih, List.forall_mem_cons]

lemma itemsSame_map {f : Node → Node} {items : List Node} (h : ∀ v ∈ items, v.Same (f v)) :
    itemsSame items (items.map f) := by
  induction items with
  | nil => rfl
  | cons v vs ih => exact ⟨f v, vs.map f, rfl, h v (by simp), ih fun w hw => h w (by simp [hw])⟩

section All

variable {key : Bytes → Prop} {scalar : Node → Prop}

mutual

/-- What holds of the keys and scalars of a tree holds of the same tree, where it does not depend
on the floats. -/
lemma Node.Same.all (hfloat : ∀ f, scalar (.float f)) : ∀ {n m : Node}, n.Same m →
    m.All key scalar → n.All key scalar
  | .string _, _, h, hm | .integer _, _, h, hm | .boolean _, _, h, hm
  | .datetime _ _, _, h, hm => by
    rw [Node.Same] at h
    exact h ▸ hm
  | .float f, _, _, _ => hfloat f
  | .array _ items, _, h, hm => by
    obtain ⟨aot, items', rfl, h⟩ := h
    exact itemsSame_all hfloat h hm
  | .table _ es, _, h, hm => by
    obtain ⟨flag, es', rfl, h, -⟩ := h
    exact entriesSame_all hfloat h hm

lemma itemsSame_all (hfloat : ∀ f, scalar (.float f)) : ∀ {vs ws : List Node}, itemsSame vs ws →
    itemsAll key scalar ws → itemsAll key scalar vs
  | [], _, _, _ => trivial
  | v :: vs, _, h, hm => by
    obtain ⟨w, ws, rfl, hv, hvs⟩ := h
    exact ⟨Node.Same.all hfloat hv hm.1, itemsSame_all hfloat hvs hm.2⟩

lemma entriesSame_all (hfloat : ∀ f, scalar (.float f)) : ∀ {es es' : List (Key × Node)},
    entriesSame es es' → entriesAll key scalar es' → entriesAll key scalar es
  | [], _, _, _ => trivial
  | (k, v) :: es, es', h, hm => by
    obtain ⟨⟨w, hprobe, hv⟩, hes⟩ := h
    have hw := entriesAll_iff.mp hm (k, w) (mem_of_probe hprobe)
    exact ⟨hw.1, Node.Same.all hfloat hv hw.2, entriesSame_all hfloat hes hm⟩

end

end All

end Teptris
