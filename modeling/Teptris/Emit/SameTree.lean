import Teptris.Dom.Same
import Teptris.Emit.RoundTrip

/-!
# Round trips

What is read back is the tree that was written: the entries of a table come back in another
order and under other flags, and nothing else changes.
-/

namespace Teptris

/-! ## The tree that is read back is the same tree -/

/-- A table is the same as another one that holds an image of each of its entries. -/
lemma entriesSame_perm {f : Key × Node → Node} {es es' : Entries}
    (hnodup : (es.map Prod.fst).Nodup) (hperm : es'.Perm (es.map fun e => (e.1, f e)))
    (h : ∀ e ∈ es, e.2.Same (f e)) :
    entriesSame es es' ∧ ∀ k ∈ es'.map Prod.fst, k ∈ es.map Prod.fst := by
  have hkeys : (es'.map Prod.fst).Perm (es.map Prod.fst) := by
    have := hperm.map Prod.fst
    rwa [List.map_map] at this
  refine ⟨entriesSame_iff.mpr fun e he => ⟨f e, ?_, h e he⟩, fun k hk => hkeys.mem_iff.mp hk⟩
  refine probe_of_mem (hkeys.nodup_iff.mpr hnodup) (hperm.mem_iff.mpr ?_)
  exact List.mem_map.mpr ⟨e, he, rfl⟩

/-- A value is read back as the same tree. -/
lemma same_asValue {v : Node} (h : IsValue v) : v.Same v.asValue := by
  induction h with
  | string | integer | boolean | datetime => exact rfl
  | float f =>
    refine ⟨f.reread, rfl, ?_⟩
    rw [Double.reread]
    split_ifs with hnan
    · exact .inr ⟨hnan, by decide⟩
    · exact .inl rfl
  | array _ ih => exact ⟨false, _, rfl, itemsAsValue_eq _ ▸ itemsSame_map ih⟩
  | table _ hnodup _ _ ih =>
    refine ⟨.inline, _, rfl, ?_⟩
    rw [entriesAsValue_eq]
    exact entriesSame_perm (f := fun e => e.2.asValue) hnodup (.refl _) ih

/-- The entry of a table as it is read back. -/
def rereadEntry (e : Key × Node) : Node := if isSection e.2 then e.2.asSection else e.2.asValue

lemma sectionsReread_eq (es : Entries) :
    sectionsReread es = (es.filter fun e => isSection e.2).map fun e => (e.1, e.2.asSection) := by
  induction es with
  | nil => rfl
  | cons e es ih =>
    obtain ⟨k, v⟩ := e
    rw [sectionsReread]
    split_ifs with hsec <;> simp [hsec, ih]

/-- The entries of a table are read back in another order. -/
lemma rereadEntries_perm (es : Entries) :
    (rereadEntries es).Perm (es.map fun e => (e.1, rereadEntry e)) := by
  have hlines : linesReread es =
      (es.filter fun e => !isSection e.2).map fun e => (e.1, rereadEntry e) := by
    refine List.map_congr_left fun e he => ?_
    have hsec := (List.mem_filter.mp he).2
    rw [rereadEntry, if_neg (by simpa using hsec)]
  have hsections : sectionsReread es =
      (es.filter fun e => isSection e.2).map fun e => (e.1, rereadEntry e) := by
    rw [sectionsReread_eq]
    refine List.map_congr_left fun e he => ?_
    rw [rereadEntry, if_pos (List.mem_filter.mp he).2]
  have hsplit := List.filter_append_perm (fun e : Key × Node => isSection e.2) es
  rw [rereadEntries, hlines, hsections, ← List.map_append]
  exact (List.perm_append_comm.trans hsplit).map _

/-- A table is read back as the same map. -/
lemma same_rereadEntries {es : Entries} (hnodup : (es.map Prod.fst).Nodup)
    (hes : ∀ e ∈ es, IsEntry e.2)
    (h : ∀ e ∈ es, isSection e.2 = true → e.2.Same e.2.asSection) :
    entriesSame es (rereadEntries es) ∧
      ∀ k ∈ (rereadEntries es).map Prod.fst, k ∈ es.map Prod.fst := by
  refine entriesSame_perm hnodup (rereadEntries_perm es) fun e he => ?_
  rw [rereadEntry]
  cases hsec : isSection e.2 with
  | true => exact h e he hsec
  | false => exact same_asValue ((hes e he).isValue hsec)

/-- A section is read back as the same tree. -/
lemma same_asSection {v : Node} (h : IsEntry v) (hsec : isSection v = true) :
    v.Same v.asSection := by
  induction h with
  | value h hflag =>
    rw [h.not_section hflag] at hsec
    exact absurd hsec (by decide)
  | table _ hnodup _ hes ih =>
    exact ⟨.explicit, _, rfl, same_rereadEntries hnodup hes fun e he => ih e he⟩
  | @aot ts hne hnodup hkey hes ih =>
    refine ⟨true, _, rfl, ?_⟩
    clear hne hsec hkey
    induction ts with
    | nil => rfl
    | cons es ts ihts =>
      refine ⟨.table .explicit (rereadEntries es), elementsReread (ts.map (.table .explicit)), rfl,
        ⟨.explicit, _, rfl, ?_⟩, ihts (fun t h => hnodup t (by simp [h]))
        (fun t h => hes t (by simp [h])) fun t h => ih t (by simp [h])⟩
      exact same_rereadEntries (hnodup es (by simp)) (hes es (by simp)) fun e he =>
        ih es (by simp) e he

/-- A document is read back as the same tree. -/
lemma same_reread {flag : TblFlag} {es : Entries} (hes : GoodEntries IsEntry es) :
    (Node.table flag es).Same (.table .explicit (rereadEntries es)) :=
  ⟨.explicit, _, rfl, same_rereadEntries hes.nodup hes.value fun e he =>
    same_asSection (hes.value e he)⟩

/-! ## Documents the parser accepts -/

/-- An accepted document is read back from its text as the same tree if and only if none of its
keys holds a DEL, and its text has no header and no value beyond the depth limit. -/
theorem round_trip_iff {fc : FloatConv} {data : Bytes} {n : Node}
    (h : parse (.ofOptions fc 0) data = .ok n) (hfloats : n.FloatsKept fc) :
    (∃ n', parse (.ofOptions fc 0) (emitDocument fc n) = .ok n' ∧ n.Same n') ↔
      n.All (fun k => Ch.del ∉ k) (fun _ => True) ∧
        n.TextNests (Config.ofOptions fc 0).maxDepth := by
  obtain ⟨es, rfl, hes⟩ := parse_good h
  have hmax : 8 ≤ (Config.ofOptions fc 0).maxDepth := show 8 ≤ 512 by decide
  have hok : (Node.table .explicit es).All Utf8.Valid Node.ScalarOk :=
    entriesAll_iff.mpr fun e he => ⟨hes.key e he, (hes.value e he).all⟩
  have hread := fun hclean =>
    @parse_emitDocument (.ofOptions fc 0) hmax .explicit es hes (hfloats.reads hclean hok)
  constructor
  · rintro ⟨n', hparse, -⟩
    have hclean := @clean_of_emitDocument fc .explicit es hes.value (parse_clean hparse)
    refine ⟨hclean, ?_⟩
    by_contra hdeep
    exact (hread hclean).2 hdeep n' hparse
  · rintro ⟨hclean, hfits⟩
    exact ⟨_, (hread hclean).1 hfits, same_reread hes⟩

/-- The document `[a.b]`, `c=1.5`. -/
theorem round_trip_nested :
    (∃ n', parse (.ofOptions .threeHalves 0) (emitDocument .threeHalves (nestedTree .implicit)) =
        .ok n' ∧ (nestedTree .implicit).Same n') ↔
      (nestedTree .implicit).All (fun k => Ch.del ∉ k) (fun _ => True) ∧
        (nestedTree .implicit).TextNests (Config.ofOptions .threeHalves 0).maxDepth :=
  have hparse : parse (.ofOptions .threeHalves 0) nestedDocument = .ok (nestedTree .implicit) := rfl
  round_trip_iff hparse nestedTree_kept

/-- The document `"\u007F"=1`. -/
def delDocument : Bytes :=
  [Ch.dquote, Ch.bslash, 0x75, 0x30, 0x30, 0x37, 0x46, Ch.dquote, Ch.eq, 0x31]

/-- The key of that document is written with its DEL as it is, and the text is refused. -/
theorem round_trip_del :
    ∃ n, parse (.ofOptions .zero 0) delDocument = .ok n ∧ n.FloatsKept .zero ∧
      ¬ ∃ n', parse (.ofOptions .zero 0) (emitDocument .zero n) = .ok n' ∧ n.Same n' := by
  refine ⟨.table .explicit [(Key.ofBytes [Ch.del], .integer 1)], rfl,
    ⟨trivial, fun f hf => (by cases hf), trivial⟩, ?_⟩
  have hrefused : ∃ e, parse (.ofOptions .zero 0) (emitDocument .zero
      (.table .explicit [(Key.ofBytes [Ch.del], .integer 1)])) = .error e := ⟨_, rfl⟩
  rintro ⟨n', hparse, -⟩
  obtain ⟨e, he⟩ := hrefused
  rw [he] at hparse
  cases hparse

end Teptris
