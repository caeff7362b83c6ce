import GethComments.RawDB.FreezerRepair

/-!
# Freezer tables with a deleted tail

The first items of a table may have been removed together with their files. The first entry of the
index then has the number of items and of files that were removed, in the fields of a file number
and an offset.

* `deleted_tail_table`: the items that are left are read, the first of them exactly if it begins
  where the first entry says, and exactly a table from which no item was removed can be truncated;
* `deleted_tail_misread`: an item that is read from the wrong offset, and a truncation that removes
  the last file.
-/

namespace GethComments.Freezer

open GethComments.Records List

namespace Table

/-- The files of a table after the items below `d` and the files below `f` were removed. -/
def deleteTail (t : Table) (d f : Nat) : Disk :=
  ⟨IndexEntry.marshallBinary ⟨d, f⟩ ++ t.index.drop ((d + 1) * indexEntrySize),
    fun k => if k < f then none else t.data k⟩

variable {snappy : Snappy} {t : Table} {ps : List Placed} {d f : Nat} {p : Placed}

/-- The table that is opened from these files. -/
def withoutTail (t : Table) (d f : Nat) : Table :=
  { t with
    index := (t.deleteTail d f).index
    data := (t.deleteTail d f).data
    files := t.files.filter (f ≤ ·)
    itemOffset := d
    tailId := f }

theorem le_file_of_mem_drop (h : t.Layout ps) (hp : ps[d]? = some p) {q : Placed}
    (hq : q ∈ ps.drop d) : p.file ≤ q.file := by
  obtain ⟨hd, hpeq⟩ := List.getElem?_eq_some_iff.mp hp
  obtain ⟨i, hi, rfl⟩ := List.mem_iff_getElem.mp hq
  rw [List.length_drop] at hi
  rw [List.getElem_drop]
  rcases Nat.eq_zero_or_pos i with rfl | hpos
  · rw [← hpeq]
    exact le_refl _
  · have hbefore := pairwise_iff_getElem.mp h.sorted d (d + i) hd (by omega) (by omega)
    rw [hpeq] at hbefore
    rcases hbefore with hlt | ⟨heq, -⟩
    · exact hlt.le
    · exact heq.le

theorem withoutTail_layout (h : t.Layout ps) (hoffset : t.itemOffset = 0) (htail : t.tailId = 0)
    (hd : d < 2 ^ 16) (hp : ps[d]? = some p) (hf : f ≤ p.file) :
    (t.withoutTail d f).Layout (ps.drop d) := by
  obtain ⟨hlen, hpeq⟩ := List.getElem?_eq_some_iff.mp hp
  have hmem : p ∈ ps := List.mem_of_getElem? hp
  have hfile : ∀ q ∈ ps.drop d, f ≤ q.file := fun q hq => hf.trans (le_file_of_mem_drop h hp hq)
  have hentries : (t.withoutTail d f).entries (ps.drop d) =
      ⟨d, f⟩ :: (t.entries ps).drop (d + 1) := by
    simp [entries, withoutTail, map_drop]
  have hget : ∀ i, ((t.withoutTail d f).entries (ps.drop d))[i + 1]? =
      (t.entries ps)[d + i + 1]? := by
    intro i
    rw [hentries, List.getElem?_cons_succ, List.getElem?_drop]
    congr 1
    omega
  have hhead : f ≤ t.headId := hf.trans (file_le_headId h hmem)
  have hdata : ∀ k, f ≤ k → (t.withoutTail d f).data k = t.data k := fun k hk =>
    if_neg (Nat.not_lt.mpr hk)
  have hpfits : p.file < 2 ^ 16 :=
    (h.fits p.entry (mem_cons_of_mem _ (mem_map_of_mem hmem))).1
  refine ⟨?_, ?_, ?_, ?_, h.sorted.sublist (drop_sublist d ps), ?_, ?_, ?_, ?_, ?_, ?_, ?_, ?_,
    h.head_fits⟩
  · rw [hentries, flatMap_cons, ← drop_records IndexEntry.length_marshallBinary, ← h.index]
    rfl
  · intro e he
    rw [hentries] at he
    rcases mem_cons.mp he with rfl | he
    · exact ⟨hd, by show f < 2 ^ 32; omega⟩
    · exact h.fits e (mem_of_mem_drop he)
  · show t.items = d + (ps.drop d).length
    rw [h.items, hoffset, List.length_drop]
    omega
  · intro i q r hq hr
    rw [List.getElem?_drop] at hq hr
    exact h.begins (d + i) q r hq (by rw [← hr, Nat.add_assoc])
  · intro q hq
    refine (h.data q (mem_of_mem_drop hq)).of_take fun c hc hle => ⟨c, ?_, hle, rfl⟩
    rw [hdata _ (hfile q hq), hc]
  · intro q hq
    exact mem_filter.mpr ⟨h.opened q (mem_of_mem_drop hq), by simpa using hfile q hq⟩
  · exact fun q hq => h.behind q (mem_of_mem_drop hq)
  · obtain ⟨c, hc, hclen⟩ := h.head
    exact ⟨c, (hdata _ hhead).trans hc, hclen⟩
  · intro e he
    obtain ⟨n, hn⟩ : ∃ n, (ps.drop d).length = n + 1 := ⟨ps.length - d - 1, by
      rw [List.length_drop]
      omega⟩
    rw [hn, hget] at he
    refine h.next e ?_
    rw [← he]
    congr 1
    rw [List.length_drop] at hn
    omega
  · exact mem_filter.mpr ⟨h.head_opened, decide_eq_true hhead⟩
  · exact fun k hk => h.files_le k (mem_filter.mp hk).1
  · intro k hk hle
    rw [hdata k hk]
    exact h.present k (by omega) hle

theorem newCustomTable_deleteTail (h : t.Layout ps) (hoffset : t.itemOffset = 0)
    (htail : t.tailId = 0) (hsize : t.index.length < 2 ^ 63) (hd : d < 2 ^ 16)
    (hp : ps[d]? = some p) (hf : f ≤ p.file) :
    ∃ t', newCustomTable (t.deleteTail d f) t.maxFileSize t.noCompression = .ok t' ∧
      t'.Layout (ps.drop d) ∧ SameConfig (t.withoutTail d f) t' ∧ t'.slack = [] := by
  obtain ⟨hlen, -⟩ := List.getElem?_eq_some_iff.mp hp
  have hl := withoutTail_layout h hoffset htail hd hp hf
  have hdrop : (ps.drop d).length = ps.length - d := List.length_drop
  have hindexlen := hl.length_index
  have hindex : repairIndex (t.deleteTail d f).index =
      (((t.withoutTail d f).entries (ps.drop d)).take ((ps.drop d).length + 1)).flatMap
        IndexEntry.marshallBinary := by
    rw [take_of_length_le (by rw [length_entries]), ← hl.index]
    have hmod : (t.deleteTail d f).index.length % indexEntrySize = 0 := by
      rw [show (t.deleteTail d f).index.length = _ from hindexlen]
      exact Nat.mul_mod_left _ _
    have hne : ¬ (t.deleteTail d f).index.length = 0 := by
      rw [show (t.deleteTail d f).index.length = _ from hindexlen, indexEntrySize]
      omega
    rw [repairIndex, if_neg hne, hmod, Nat.sub_zero, take_length]
    rfl
  have hsize' : (t.withoutTail d f).index.length < 2 ^ 63 := by
    rw [h.length_index, indexEntrySize] at hsize
    rw [hindexlen, hdrop, indexEntrySize]
    omega
  have hhead : ((t.deleteTail d f).data (t.withoutTail d f).headId).getD [] =
      (t.withoutTail d f).head.take (t.withoutTail d f).head.length := take_length.symm
  obtain ⟨e, he⟩ := exists_entry (t := t.withoutTail d f) (le_refl (ps.drop d).length)
  have hle : e.offset ≤ (((t.deleteTail d f).data e.filenum).getD []).length := by
    rcases bound_cases he with ⟨hzero, -⟩ | ⟨q, hq, rfl⟩
    · omega
    · obtain ⟨c, hc, hstop, -⟩ := hl.data q hq
      rw [show (t.deleteTail d f).data q.entry.filenum = some c from hc]
      exact hstop
  obtain ⟨t', m, hopen, hm1, hm2, hl', hconf, hslack, -⟩ := repair_cut hl hsize' hindex (le_refl _)
    (fun _ _ => rfl) hhead he hle (le_refl _) (Or.inl (by omega))
    fun q hq => hf.trans (le_file_of_mem_drop h hp hq)
  obtain rfl : m = (ps.drop d).length := le_antisymm hm2 hm1
  rw [take_length] at hl'
  exact ⟨t', hopen, hl', hconf, hslack⟩

theorem length_index_truncate {m : Nat} (hm : m < t.items) :
    (t.truncate m).index.length = (m + 1) * indexEntrySize := by
  rw [truncate, if_neg (by omega)]
  simp only [truncateHead]
  split
  · show (openForAppend _ _).index.length = _
    rw [openForAppend_index]
    exact length_resize _ _
  · exact length_resize _ _

/-- The items from `d` to `m` are left in the table `t'`, which may have been truncated to `t''`. -/
structure Remain (snappy : Snappy) (t' t'' : Table) (d m : Nat) : Prop where
  items : t''.items = m
  retrieve : ∀ i, d ≤ i → i < m → t''.retrieve snappy i = t'.retrieve snappy i
  outOfBounds : ∀ i, i < d ∨ m ≤ i → t''.retrieve snappy i = .error .outOfBounds
  append : ∀ b, (t'.stored snappy b).length < 2 ^ 32 → t''.headId + 1 < 2 ^ 16 →
    ∃ u, t''.append snappy m b none = (.ok (), u) ∧ u.retrieve snappy m = .ok b

theorem remain_of_layout (hs : snappy.RoundTrips) {t' t'' : Table} {m : Nat} {qs : List Placed}
    (h : t''.Layout qs) (hslack : t''.slack = []) (hoffset : t''.itemOffset = d)
    (hlen : d + qs.length = m) (hfirst : d = 0 ∨ qs ≠ [])
    (hstored : t''.stored snappy = t'.stored snappy)
    (hread : ∀ i, d ≤ i → i < m → t''.retrieve snappy i = t'.retrieve snappy i) :
    Remain snappy t' t'' d m := by
  have hitems : t''.items = m := by rw [h.items, hoffset, hlen]
  refine ⟨hitems, hread, fun i hi => retrieve_outOfBounds (by rwa [hoffset, hitems]),
    fun b hb hfiles => ?_⟩
  have hroom : Room snappy t'' qs b := by
    refine ⟨hstored ▸ hb, hfiles, fun hnil heq => ?_⟩
    have := hfirst.resolve_right (not_not_intro hnil)
    omega
  obtain ⟨u, q, happ⟩ := append_layout h hroom
  have hget := happ.retrieve h
  rw [lands_of_slack hslack, restored_stored hs, hitems] at hget
  exact ⟨u, hitems ▸ happ.ok, hget⟩

theorem retrieve_drop (hs : snappy.RoundTrips) {blobs : List Bytes} {k i : Nat} {b : Bytes}
    (h : t.Layout ((ps.drop d).take k)) (hoffset : t.itemOffset = d)
    (hblobs : ps.map Placed.bytes = blobs.map (t.stored snappy)) (hi : d ≤ i) (hik : i < d + k)
    (hfirst : d = i → t.FirstBegins (ps.drop d)) (hb : blobs[i]? = some b) :
    t.retrieve snappy i = .ok b := by
  have hmap : (ps[i]?).map Placed.bytes = some (t.stored snappy b) := by
    rw [← List.getElem?_map, hblobs, List.getElem?_map, hb, Option.map_some]
  obtain ⟨q, hq, hbytes⟩ := Option.map_eq_some_iff.mp hmap
  have hget : ((ps.drop d).take k)[i - d]? = some q := by
    rw [List.getElem?_take, if_pos (by omega), List.getElem?_drop, Nat.add_sub_cancel' hi, hq]
  have hr : t.retrieve snappy (t.itemOffset + (i - d)) = _ :=
    retrieve_layout h (fun h0 => (hfirst (by omega)).take k) hget
  rwa [hoffset, Nat.add_sub_cancel' hi, hbytes, restored_stored hs] at hr

/-- A table with a deleted tail opens, and all items but the first one are read. The first one is
read if it begins where the first entry of the index says, and without compression only then.
`truncate` leaves the right number of entries exactly if no item was removed or none is dropped, and
then the right items are left. -/
theorem deleted_tail_table (hs : snappy.RoundTrips) (h : t.Layout ps) (hfirst : t.FirstBegins ps)
    (blobs : List Bytes) (hblobs : ps.map Placed.bytes = blobs.map (t.stored snappy))
    (hoffset : t.itemOffset = 0) (htail : t.tailId = 0) (hsize : t.index.length < 2 ^ 63)
    (hd : d < 2 ^ 16) (hp : ps[d]? = some p) (hf : f ≤ p.file) :
    ∃ t', newCustomTable (t.deleteTail d f) t.maxFileSize t.noCompression = .ok t' ∧
      t'.items = blobs.length ∧
      (∀ i b, d < i → blobs[i]? = some b → t'.retrieve snappy i = .ok b) ∧
      (∀ b, blobs[d]? = some b →
        (Begins ⟨d, f⟩ p.file p.start → t'.retrieve snappy d = .ok b) ∧
        (t.noCompression = true → t'.retrieve snappy d = .ok b → Begins ⟨d, f⟩ p.file p.start)) ∧
      ∀ m, d ≤ m → m ≤ blobs.length →
        ((t'.truncate m).index.length = (m - d + 1) * indexEntrySize ↔ d = 0 ∨ m = blobs.length) ∧
        (d = 0 ∨ m = blobs.length → Remain snappy t' (t'.truncate m) d m) := by
  obtain ⟨hlen, -⟩ := List.getElem?_eq_some_iff.mp hp
  have hn : ps.length = blobs.length := by simpa using congrArg List.length hblobs
  obtain ⟨t', hopen, hl, hconf, hslack⟩ := newCustomTable_deleteTail h hoffset htail hsize hd hp hf
  have hoff : t'.itemOffset = d := hconf.itemOffset
  have htl : t'.tailId = f := hconf.tailId
  have hdrop : (ps.drop d).length = blobs.length - d := by rw [List.length_drop, hn]
  have hzero : (ps.drop d)[0]? = some p := by rw [List.getElem?_drop, Nat.add_zero, hp]
  have hitems : t'.items = blobs.length := by
    rw [hl.items, hoff, hdrop]
    omega
  have hblobs' : ps.map Placed.bytes = blobs.map (t'.stored snappy) := by
    rw [hconf.stored]
    exact hblobs
  have hbegins : Begins ⟨d, f⟩ p.file p.start → t'.FirstBegins (ps.drop d) := by
    intro hb q hq
    obtain rfl : p = q := Option.some.inj (hzero.symm.trans hq)
    rwa [hoff, htl]
  have hall : (ps.drop d).take (blobs.length - d) = ps.drop d := take_of_length_le hdrop.le
  have hself : ∀ i b, d ≤ i → (d = i → t'.FirstBegins (ps.drop d)) → blobs[i]? = some b →
      t'.retrieve snappy i = .ok b := fun i b hi hfi hb =>
    have hlt : i < blobs.length := (List.getElem?_eq_some_iff.mp hb).1
    retrieve_drop hs (hall.symm ▸ hl) hoff hblobs' hi (by omega) hfi hb
  refine ⟨t', hopen, hitems, fun i b hi hb => ?_, fun b hb => ⟨fun hbeg => ?_, fun hraw hr => ?_⟩,
    fun m hdm hmn => ⟨?_, ?_⟩⟩
  · exact hself i b hi.le (by omega) hb
  · exact hself d b (le_refl d) (fun _ => hbegins hbeg) hb
  · have hraw' : t'.noCompression = true := hconf.noCompression.trans hraw
    have hpb : p.bytes = b := by
      have hmap := congrArg (·[d]?) hblobs'
      simpa [hb, hp, stored, hraw'] using hmap
    have hr' : t'.retrieve snappy t'.itemOffset = .ok p.bytes := by rw [hoff, hpb, hr]
    have hfb := firstBegins_of_retrieve hl hraw' hzero hr' p hzero
    rwa [hoff, htl] at hfb
  · rcases Nat.lt_or_eq_of_le hmn with hlt | rfl
    · rw [length_index_truncate (hitems ▸ hlt), indexEntrySize]
      omega
    · rw [truncate, if_pos hitems.le, hl.length_index, hdrop]
      simp
  · rintro (rfl | rfl)
    · obtain ⟨hl', hconf', hslack', -⟩ := truncate_layout hl hoff m
      -- nothing was removed, so the first item is where it was
      have hstart : t'.FirstBegins (ps.drop 0) := hbegins (by
        have := hfirst p hp
        simp only [Begins, hoffset, htail, ite_self] at this ⊢
        split <;> omega)
      refine remain_of_layout hs hl' (hslack' hslack) (hconf'.itemOffset.trans hoff) ?_ (Or.inl rfl)
        hconf'.stored fun i hi him => ?_
      · rw [length_take, hdrop]
        omega
      · have hb := List.getElem?_eq_getElem (show i < blobs.length by omega)
        rw [hself i _ hi (fun _ => hstart) hb]
        exact retrieve_drop hs hl' (hconf'.itemOffset.trans hoff) (hconf'.stored ▸ hblobs') hi
          (by omega) (fun _ => hstart.config hconf') hb
    · rw [truncate, if_pos hitems.le]
      refine remain_of_layout hs hl hslack hoff (by omega) (Or.inr fun hnil => ?_) rfl
        fun i _ _ => rfl
      rw [hnil, length_nil] at hdrop
      omega

/-- Three items, of which the first two were removed with their file. -/
theorem deleted_tail_third : ∃ t : Table, t.items = 3 ∧
      ∃ t', newCustomTable (t.deleteTail 2 1) 2 true = .ok t' ∧ t'.items = 3 ∧
        t'.retrieve plain 2 = .ok [3] ∧ (t'.truncate 3).retrieve plain 2 = .ok [3] := by
  obtain ⟨t₁, heq₁, hl₁, -⟩ := appendHead_layout (layout_empty 2 true) (b := [1]) (by decide)
  cases heq₁
  obtain ⟨t₂, heq₂, hl₂, -⟩ := appendHead_layout hl₁ (b := [2]) (by decide)
  cases heq₂
  have hl₃ := nextFile_layout hl₂ (by decide) (by simp)
  obtain ⟨t₄, heq₄, hl₄, -⟩ := appendHead_layout hl₃ (b := [3]) (by decide)
  cases heq₄
  have hs : plain.RoundTrips := fun b => rfl
  obtain ⟨t', hopen, hitems, -, hread, htruncate⟩ := deleted_tail_table (d := 2) (f := 1) hs hl₄
    (fun q hq => by cases hq; rfl) [[1], [2], [3]] rfl rfl rfl (by decide) (by decide) rfl
    (by decide)
  have hremain := (htruncate 3 (by decide) (by decide)).2 (Or.inr rfl)
  have h2 := (hread [3] rfl).1 rfl
  exact ⟨_, rfl, t', hopen, hitems, h2, (hremain.retrieve 2 (by decide) (by decide)).trans h2⟩

/-- Blobs of two bytes, three of them in files of their own, and four in two files. -/
def tailBlobs : List Bytes := [[1, 2], [3, 4], [5, 6], [7, 8]]

/-- A table with the blobs, in files of the given size. -/
def tailTable (maxFileSize : Nat) : Except FreezerError Table := do
  let t ← newCustomTable ⟨[], fun _ => none⟩ maxFileSize true
  run plain t (tailBlobs.zipIdx.map fun p => .append p.2 p.1)

/-- The first item that is left is in file 1, and one item was removed: it is read from offset 1.
Two items were removed with file 0: after the truncation to three items the last file is gone. -/
theorem deleted_tail_misread : (do
      let t ← tailTable 2
      let t' ← newCustomTable (t.deleteTail 1 1) 2 true
      t'.retrieve plain 1) = .ok [4] ∧
    (do
      let t ← tailTable 4
      let t' ← newCustomTable (t.deleteTail 2 1) 4 true
      t'.retrieve plain 2) = .ok [5, 6] ∧
    (do
      let t ← tailTable 4
      let t' ← newCustomTable (t.deleteTail 2 1) 4 true
      (t'.truncate 3).retrieve plain 2) = .error (.missingDataFile 1) := by
  decide +kernel

end Table

end GethComments.Freezer
