import GethComments.Lib.Run
import GethComments.RawDB.FreezerLayout

/-!
# Opening a freezer table after a crash

`repair` cuts the index and the head file back until they agree. What was in the files behind the
first entries that are left is not looked at.

* `repairLoop_scan`: the loop stops at the last entry that points into its file;
* `repair_cut`: opening a table that was cut gives its first items;
* `repair_short_index`: a part of the first entry leaves a table with a wrapped number of items;
* `crash_recovers`: exactly the crashes that leave the first entry of the index, or none of it,
  leave a table with some of the items.
-/

namespace GethComments.Freezer

open GethComments.Records Option IndexEntry List

namespace Table

section Loop

variable {es : List IndexEntry} {disk : Nat → Option Bytes} {t : Table} {e : IndexEntry}

/-- The files are those on disk, and some that were created empty. -/
def Opened (disk data : Nat → Option Bytes) (k : Nat) : Prop :=
  data k = disk k ∨ disk k = none ∧ data k = some []

variable {k : Nat}

theorem Opened.getD {data : Nat → Option Bytes} (h : Opened disk data k) :
    (data k).getD [] = (disk k).getD [] := by
  rcases h with h | ⟨h, h'⟩
  · rw [h]
  · rw [h, h']
    rfl

def FilesExist (t : Table) : Prop := ∀ x ∈ t.files, (t.data x).isSome = true

/-- The state of the loop before the entry `e`, the last of `k + 1`, is checked. -/
structure Scan (es : List IndexEntry) (disk : Nat → Option Bytes) (k : Nat) (t : Table)
    (e : IndexEntry) : Prop where
  index : t.index = (es.take (k + 1)).flatMap marshallBinary
  last : es[k]? = some e
  data : ∀ x, Opened disk t.data x
  files : t.FilesExist
  exists_file : (t.data e.filenum).isSome = true

theorem openForAppend_data (num k : Nat) : Opened t.data (t.openForAppend num).data k := by
  unfold openForAppend
  split
  case isTrue hmem => exact Or.inl rfl
  case isFalse =>
    by_cases hk : k = num
    · subst hk
      cases hd : t.data k with
      | none => exact Or.inr ⟨hd, by simp⟩
      | some c => exact Or.inl (by simp [hd])
    · exact Or.inl (Function.update_of_ne hk _ _)

theorem openForAppend_config (num : Nat) : SameConfig t (t.openForAppend num) := by
  unfold openForAppend
  split <;> exact ⟨rfl, rfl, rfl, rfl⟩

theorem openForAppend_index (num : Nat) : (t.openForAppend num).index = t.index := by
  unfold openForAppend
  split <;> rfl

theorem mem_files_openForAppend {num x : Nat} :
    x ∈ (t.openForAppend num).files ↔ x = num ∨ x ∈ t.files := by
  unfold openForAppend
  split
  case isTrue hmem =>
    refine ⟨Or.inr, ?_⟩
    rintro (rfl | hx)
    · exact hmem
    · exact hx
  case isFalse => exact mem_cons

theorem filesExist_openForAppend (h : t.FilesExist) (num : Nat) :
    (t.openForAppend num).FilesExist := by
  intro x hx
  have hdata := openForAppend_data (t := t) num x
  by_cases hmem : x ∈ t.files
  · rcases hdata with heq | ⟨-, heq⟩
    · rw [heq]
      exact h x hmem
    · rw [heq]
      rfl
  · obtain rfl := (mem_files_openForAppend.mp hx).resolve_right hmem
    simp [openForAppend, hmem]

theorem Opened.trans {data data' : Nat → Option Bytes} (h : Opened disk data k)
    (h' : Opened data data' k) : Opened disk data' k := by
  rcases h' with h' | ⟨h', h''⟩
  · rcases h with h | ⟨h, hd⟩
    · exact Or.inl (h'.trans h)
    · exact Or.inr ⟨h, h'.trans hd⟩
  · rcases h with h | ⟨h, hd⟩
    · exact Or.inr ⟨h.symm.trans h', h''⟩
    · exact absurd (hd.symm.trans h') (by simp)

/-- What the loop leaves. -/
structure Scanned (es : List IndexEntry) (disk : Nat → Option Bytes) (m : Nat) (t t' : Table)
    (e : IndexEntry) : Prop where
  config : SameConfig t t'
  index : t'.index = (es.take (m + 1)).flatMap marshallBinary
  last : es[m]? = some e
  offset_le : e.offset ≤ ((disk e.filenum).getD []).length
  head : t'.data e.filenum = some (((disk e.filenum).getD []).take e.offset)
  data : ∀ x, x ≠ e.filenum → Opened disk t'.data x

/-- The last entry points into its file: what is behind it is cut off. -/
theorem repairLoop_stop (h : Scan es disk k t e)
    (hle : e.offset ≤ ((disk e.filenum).getD []).length) :
    ∃ t', repairLoop (k + 1) t e ((disk e.filenum).getD []).length = .ok (t', k + 1, e) ∧
      Scanned es disk k t t' e := by
  obtain ⟨c, hc⟩ := isSome_iff_exists.mp h.exists_file
  have hcd : c = (disk e.filenum).getD [] := by rw [← (h.data e.filenum).getD, hc, getD_some]
  rw [repairLoop]
  by_cases heq : e.offset = ((disk e.filenum).getD []).length
  · rw [if_pos heq]
    refine ⟨t, rfl, ⟨rfl, rfl, rfl, rfl⟩, h.index, h.last, hle, ?_, fun x _ => h.data x⟩
    rw [hc, heq, take_length, hcd]
  · have hlt : e.offset < ((disk e.filenum).getD []).length := lt_of_le_of_ne hle heq
    rw [if_neg heq, if_pos hlt]
    refine ⟨_, rfl, ⟨rfl, rfl, rfl, rfl⟩, h.index, h.last, hle, ?_, fun x hx => ?_⟩
    · simp [truncateHead, head, hc, resize_of_le, hcd, hle]
    · have hdata : ({ t with headId := e.filenum }.truncateHead e.offset).data x = t.data x :=
        Function.update_of_ne hx _ _
      rcases h.data x with hx | ⟨hx, hx'⟩
      · exact Or.inl (hdata.trans hx)
      · exact Or.inr ⟨hx, hdata.trans hx'⟩

/-- The last entry points behind the end of its file: it is dropped. -/
theorem repairLoop_step (hfits : ∀ e ∈ es, e.Fits) (h : Scan es disk (k + 1) t e)
    (hlt : ((disk e.filenum).getD []).length < e.offset) :
    ∃ t' e', Scan es disk k t' e' ∧ SameConfig t t' ∧
      repairLoop (k + 2) t e ((disk e.filenum).getD []).length =
        repairLoop (k + 1) t' e' ((disk e'.filenum).getD []).length := by
  have hk : k + 1 < es.length := (List.getElem?_eq_some_iff.mp h.last).1
  obtain ⟨e', he'⟩ : ∃ e', es[k]? = some e' := ⟨_, List.getElem?_eq_getElem (by omega)⟩
  have hindex : resize t.index ((k + 1) * indexEntrySize) =
      (es.take (k + 1)).flatMap marshallBinary := by
    rw [h.index, resize_of_le, take_records length_marshallBinary, take_take]
    · congr 2
      omega
    · rw [length_records length_marshallBinary, length_take]
      exact Nat.mul_le_mul_right _ (by omega)
  have hread := readEntry_take hfits he'
  set t1 : Table := { t with index := (es.take (k + 1)).flatMap marshallBinary } with ht1
  have hloop : repairLoop (k + 2) t e ((disk e.filenum).getD []).length =
      if e'.filenum ≠ e.filenum then
        repairLoop (k + 1) ((t1.releaseFile e.filenum).openForAppend e'.filenum) e'
          ((((t1.releaseFile e.filenum).openForAppend e'.filenum).data e'.filenum).getD []).length
      else repairLoop (k + 1) t1 e' ((disk e.filenum).getD []).length := by
    rw [repairLoop, if_neg (by omega), if_neg (by omega)]
    simp only [hindex, Nat.add_sub_cancel, hread, getD_some, Nat.succ_ne_zero, if_false,
      ← ht1]
  by_cases hfile : e'.filenum = e.filenum
  · refine ⟨t1, e', ⟨rfl, he', h.data, h.files, hfile ▸ h.exists_file⟩, ⟨rfl, rfl, rfl, rfl⟩, ?_⟩
    rw [hloop, if_neg (by simpa using hfile), hfile]
  · set t2 := (t1.releaseFile e.filenum).openForAppend e'.filenum with ht2
    have hdata : ∀ x, Opened disk t2.data x := fun x => (h.data x).trans (openForAppend_data _ x)
    have hrelease : (t1.releaseFile e.filenum).FilesExist := fun x hx =>
      h.files x (mem_of_mem_filter hx)
    have hfiles : t2.FilesExist := filesExist_openForAppend hrelease _
    have hopened : e'.filenum ∈ t2.files := mem_files_openForAppend.mpr (Or.inl rfl)
    have hconf : SameConfig t (t1.releaseFile e.filenum) := ⟨rfl, rfl, rfl, rfl⟩
    refine ⟨t2, e', ⟨openForAppend_index _, he', hdata, hfiles, hfiles _ hopened⟩,
      hconf.trans (openForAppend_config _), ?_⟩
    rw [hloop, if_pos hfile, (hdata e'.filenum).getD]

theorem repairLoop_scan (hfits : ∀ e ∈ es, e.Fits) {m0 : Nat} {e0 : IndexEntry}
    (he0 : es[m0]? = some e0) (hle0 : e0.offset ≤ ((disk e0.filenum).getD []).length) (k : Nat) :
    ∀ {t : Table} {e : IndexEntry}, Scan es disk k t e → m0 ≤ k →
      ∃ t' m e', repairLoop (k + 1) t e ((disk e.filenum).getD []).length = .ok (t', m + 1, e') ∧
        m0 ≤ m ∧ m ≤ k ∧ Scanned es disk m t t' e' := by
  induction k with
  | zero =>
    intro t e h hm
    obtain rfl : m0 = 0 := by omega
    obtain rfl : e0 = e := some.inj (he0.symm.trans h.last)
    obtain ⟨t', heq, hscan⟩ := repairLoop_stop h hle0
    exact ⟨t', 0, e0, heq, hm, le_refl 0, hscan⟩
  | succ k ih =>
    intro t e h hm
    by_cases hle : e.offset ≤ ((disk e.filenum).getD []).length
    · obtain ⟨t', heq, hscan⟩ := repairLoop_stop h hle
      exact ⟨t', k + 1, e, heq, hm, le_refl _, hscan⟩
    · have hne : m0 ≠ k + 1 := by
        rintro rfl
        obtain rfl : e0 = e := some.inj (he0.symm.trans h.last)
        exact hle hle0
      obtain ⟨t1, e1, hscan1, hconf, heq1⟩ := repairLoop_step hfits h (by omega)
      obtain ⟨t', m, e', heq, hm0, hmk, hscan⟩ := ih hscan1 (by omega)
      exact ⟨t', m, e', heq1.trans heq, hm0, by omega,
        ⟨hconf.trans hscan.config, hscan.index, hscan.last, hscan.offset_le, hscan.head,
          hscan.data⟩⟩

end Loop

/-! ## Reopening -/

section Reopen

variable {snappy : Snappy} {t : Table} {ps : List Placed}

theorem foldlM_openForReadOnly (l : List Nat) (h : ∀ k ∈ l, (t.data k).isSome = true) :
    ∀ files, ∃ files', l.foldlM openForReadOnly { t with files := files } =
      .ok { t with files := files' } ∧ ∀ k, k ∈ files' ↔ k ∈ l ∨ k ∈ files := by
  induction l with
  | nil => exact fun files => ⟨files, rfl, by simp⟩
  | cons num l ih =>
    intro files
    have hnum : (t.data num).isNone = false := by simp [h num mem_cons_self]
    obtain ⟨files1, heq1, hmem1⟩ : ∃ files1, openForReadOnly { t with files := files } num =
        .ok { t with files := files1 } ∧ ∀ k, k ∈ files1 ↔ k = num ∨ k ∈ files := by
      by_cases hopen : num ∈ files
      · refine ⟨files, by simp [openForReadOnly, hopen], fun k => ?_⟩
        refine ⟨Or.inr, ?_⟩
        rintro (rfl | hk)
        · exact hopen
        · exact hk
      · exact ⟨num :: files, by simp [openForReadOnly, hopen, hnum], fun k => mem_cons⟩
    obtain ⟨files', heq, hmem⟩ := ih (fun k hk => h k (mem_cons_of_mem _ hk)) files1
    refine ⟨files', ?_, fun k => ?_⟩
    · rw [foldlM_cons, heq1]
      exact heq
    · rw [hmem, hmem1, mem_cons]
      tauto

theorem preopen_eq (htail : t.tailId ≤ t.headId)
    (h : ∀ k, t.tailId ≤ k → k ≤ t.headId → (t.data k).isSome = true) :
    ∃ files, t.preopen = .ok { t with files := files } ∧
      ∀ k, (t.tailId ≤ k ∧ k ≤ t.headId → k ∈ files) ∧ (k ∈ files → k ≤ t.headId) := by
  have hrelease : t.releaseFilesAfter 0 false = { t with files := t.files.filter (· ≤ 0) } := by
    simp [releaseFilesAfter]
  have hrange : ∀ k, k ∈ range' t.tailId (t.headId - t.tailId) ↔
      t.tailId ≤ k ∧ k < t.headId := by
    intro k
    rw [mem_range'_1]
    omega
  obtain ⟨files, heq, hmem⟩ := foldlM_openForReadOnly (t := t)
    (range' t.tailId (t.headId - t.tailId))
    (fun k hk => h k ((hrange k).mp hk).1 ((hrange k).mp hk).2.le) (t.files.filter (· ≤ 0))
  have hhead : ∃ files', { t with files := files }.openForAppend t.headId =
      { t with files := files' } ∧ ∀ k, k ∈ files' ↔ k = t.headId ∨ k ∈ files := by
    obtain ⟨c, hc⟩ := isSome_iff_exists.mp (h t.headId htail (le_refl _))
    refine ⟨({ t with files := files }.openForAppend t.headId).files, ?_,
      fun k => mem_files_openForAppend⟩
    unfold openForAppend
    split
    · rfl
    · simp only [hc, getD_some]
      rw [← hc, Function.update_eq_self]
  obtain ⟨files', heq', hmem'⟩ := hhead
  refine ⟨files', ?_, fun k => ⟨fun hk => ?_, fun hk => ?_⟩⟩
  · rw [preopen, hrelease]
    show (foldlM _ _ _ >>= fun t => _) = _
    rw [heq]
    exact congrArg Except.ok heq'
  · rw [hmem', hmem, hrange]
    omega
  · rw [hmem', hmem, hrange, mem_filter] at hk
    have hzero : ∀ k : Nat, decide (k ≤ 0) = true → k ≤ t.headId := fun k hk => by
      have := of_decide_eq_true hk
      omega
    rcases hk with rfl | ⟨-, hk⟩ | ⟨-, hk⟩
    · exact le_refl _
    · exact hk.le
    · exact hzero k hk

theorem repair_cut (h : t.Layout ps) (hsize : t.index.length < 2 ^ 63) {disk : Disk} {j : Nat}
    (hindex : repairIndex disk.index =
      ((t.entries ps).take (j + 1)).flatMap marshallBinary) (hj : j ≤ ps.length)
    (hdata : ∀ k, k ≠ t.headId → disk.data k = t.data k)
    {b : Nat} (hhead : (disk.data t.headId).getD [] = t.head.take b) {m0 : Nat} {e0 : IndexEntry}
    (he0 : (t.entries ps)[m0]? = some e0)
    (hle0 : e0.offset ≤ ((disk.data e0.filenum).getD []).length) (hm0 : m0 ≤ j)
    (hpos : 0 < m0 ∨ t.itemOffset = 0 ∧ t.tailId = 0) (htail : ∀ p ∈ ps, t.tailId ≤ p.file) :
    ∃ t' m, newCustomTable disk t.maxFileSize t.noCompression = .ok t' ∧ m0 ≤ m ∧ m ≤ j ∧
      t'.Layout (ps.take m) ∧ SameConfig t t' ∧ t'.slack = [] ∧ t'.headId ≤ t.headId := by
  obtain ⟨e, he⟩ := exists_entry (t := t) hj
  have hfits : ∀ e ∈ (t.entries ps).take (j + 1), e.Fits := fun e he =>
    h.fits e (mem_of_mem_take he)
  set index := ((t.entries ps).take (j + 1)).flatMap marshallBinary with hindex0
  have hlen : index.length / indexEntrySize = j + 1 := by
    rw [hindex0, length_records length_marshallBinary, length_take, length_entries,
      Nat.min_eq_left (by omega)]
    exact Nat.mul_div_cancel _ (by decide)
  have hfirst : readEntry index 0 = some ⟨t.itemOffset, t.tailId⟩ := by
    rw [readEntry_records hfits]
    simp [entries]
  have hlast : readEntry index j = some e := readEntry_take h.fits he
  set t0 : Table := ⟨0, t.noCompression, t.maxFileSize, [], 0, t.tailId, t.itemOffset, 0, index,
    disk.data⟩ with ht0
  set t1 := t0.openForAppend e.filenum with ht1
  have hopened : ∀ x, Opened disk.data t1.data x := openForAppend_data e.filenum
  have hfiles : t1.FilesExist := filesExist_openForAppend (fun x hx => by simp [ht0] at hx) _
  have hscan : Scan (t.entries ps) disk.data j t1 e :=
    ⟨openForAppend_index _, he, hopened, hfiles,
      hfiles _ (mem_files_openForAppend.mpr (Or.inl rfl))⟩
  obtain ⟨t2, m, e', hloop, hm₀m, hmj, hscanned⟩ := repairLoop_scan h.fits he0 hle0 j hscan hm0
  have hconf : SameConfig t t2 := by
    have hconf0 : SameConfig t t0 := ⟨rfl, rfl, rfl, rfl⟩
    exact (hconf0.trans (openForAppend_config _)).trans hscanned.config
  have hitems : (t2.itemOffset + (m + 1 + (2 ^ 64 - 1)) % 2 ^ 64) % 2 ^ 64 = t.itemOffset + m := by
    have hd : t.itemOffset < 2 ^ 16 := (h.fits _ mem_cons_self).1
    have hn : t.index.length = (ps.length + 1) * 6 := h.length_index
    rw [hconf.itemOffset]
    omega
  -- The last entry that is left is the first one only if nothing was removed at the tail.
  have hbound : t.tailId ≤ e'.filenum ∧ e'.filenum ≤ t.headId := by
    rcases bound_cases hscanned.last with ⟨hm, rfl⟩ | ⟨q, hq, rfl⟩
    · obtain ⟨hd, hf⟩ := hpos.resolve_left (by omega)
      simp [hd, hf]
    · exact ⟨htail q hq, file_le_headId h hq⟩
  have hpresent : ∀ k, t.tailId ≤ k → k ≤ e'.filenum → (t2.data k).isSome = true := by
    intro k hk hle
    by_cases hke : k = e'.filenum
    · rw [hke, hscanned.head]
      rfl
    · rcases hscanned.data k hke with heq | ⟨-, heq⟩
      · rw [heq, hdata k (by omega)]
        exact h.present k hk (by omega)
      · rw [heq]
        rfl
  set t3 : Table := { t2 with
    items := (t2.itemOffset + (m + 1 + (2 ^ 64 - 1)) % 2 ^ 64) % 2 ^ 64
    headBytes := e'.offset
    headId := e'.filenum } with ht3
  obtain ⟨files, hpre, hmem⟩ := preopen_eq (t := t3) (hconf.tailId ▸ hbound.1)
    fun k hk => hpresent k (hconf.tailId ▸ hk)
  have hopen : newCustomTable disk t.maxFileSize t.noCompression =
      .ok { t3 with files := files } := by
    rw [newCustomTable, repair]
    simp only [hindex, hlen, hfirst, getD_some, Nat.add_sub_cancel, Nat.succ_ne_zero,
      if_false, hlast]
    show (repairLoop (j + 1) t1 e ((t1.data e.filenum).getD []).length >>= fun r => _) = _
    rw [(hopened e.filenum).getD, hloop]
    exact hpre
  have hcut : Cut t ps m e' { t3 with files := files } := by
    refine ⟨⟨hconf.noCompression, hconf.maxFileSize, hconf.itemOffset, hconf.tailId⟩,
      hscanned.index, hitems, rfl, rfl, ?_, fun p hp hlt => ?_, (hmem _).1 ⟨?_, le_refl _⟩,
      fun p hp => (hmem _).1 ⟨?_, ?_⟩, fun k => (hmem k).2, hpresent⟩
    · refine ⟨_, hscanned.head, ?_, fun c hc hpos => ?_⟩
      · rw [length_take, Nat.min_eq_left hscanned.offset_le]
      · by_cases hid : e'.filenum = t.headId
        · have hle := hscanned.offset_le
          rw [hid, hhead, length_take] at hle
          rw [hid, hhead, take_take, Nat.min_eq_left (by omega), head, ← hid,
            hc, getD_some]
        · rw [hdata _ hid, hc, getD_some]
    · obtain ⟨c, hc, -⟩ := h.data p (mem_of_mem_take hp)
      have hdisk : disk.data p.file = t.data p.file := hdata _ (by omega)
      rcases hscanned.data p.file (by omega) with heq | ⟨hnone, -⟩
      · exact heq.trans hdisk
      · rw [hdisk, hc] at hnone
        cases hnone
    · rw [show t3.tailId = t.tailId from hconf.tailId]
      exact hbound.1
    · rw [show t3.tailId = t.tailId from hconf.tailId]
      exact htail p (mem_of_mem_take hp)
    · rcases le_bound h hscanned.last hp with hlt | ⟨heq, -⟩
      · exact hlt.le
      · exact heq.le
  exact ⟨_, m, hopen, hm₀m, hmj, hcut.layout h hscanned.last, hcut.config, hcut.slack, hbound.2⟩

end Reopen

/-! ## Crashes -/

inductive Op where
  | append (item : Nat) (blob : Bytes)
  | truncate (items : Nat)

def Op.exec (snappy : Snappy) (t : Table) : Op → Except FreezerError Table
  | append item blob =>
    match t.append snappy item blob none with
    | (.ok (), t') => .ok t'
    | (.error e, _) => .error e
  | truncate items => .ok (t.truncate items)

def run (snappy : Snappy) (t : Table) (ops : List Op) : Except FreezerError Table :=
  ops.foldlM (Op.exec snappy) t

def Op.write (blobs : List Bytes) : Op → List Bytes
  | append _ blob => blobs ++ [blob]
  | truncate items => blobs.take items

def appended (ops : List Op) : List Bytes := ops.foldl Op.write []

/-- The files after a crash: prefixes of the index and of the head file. -/
def crash (t : Table) (a b : Nat) : Disk :=
  ⟨t.index.take a, Function.update t.data t.headId (some (t.head.take b))⟩

section Crash

variable {snappy : Snappy} {t : Table} {blobs : List Bytes}

def empty (maxFileSize : Nat) (noCompression : Bool) : Table :=
  ⟨0, noCompression, maxFileSize, [0], 0, 0, 0, 0, replicate indexEntrySize 0,
    Function.update (fun _ => none) 0 (some [])⟩

theorem entries_empty (maxFileSize : Nat) (noCompression : Bool) :
    (empty maxFileSize noCompression).entries [] = [⟨0, 0⟩] := rfl

theorem layout_empty (maxFileSize : Nat) (noCompression : Bool) :
    (empty maxFileSize noCompression).Layout [] := by
  have hentries := entries_empty maxFileSize noCompression
  have hfits : IndexEntry.Fits ⟨0, 0⟩ := ⟨by decide, by decide⟩
  refine ⟨by rw [hentries]; rfl, ?_, rfl, by simp, .nil, by simp, by simp, by simp,
    ⟨[], rfl, le_refl 0⟩, ?_, by simp [empty], by simp [empty], fun k _ hk => ?_, hfits⟩
  · intro e he
    rw [hentries, mem_singleton] at he
    rw [he]
    exact hfits
  · intro e he
    obtain rfl : (⟨0, 0⟩ : IndexEntry) = e := by simpa [hentries] using he
    rfl
  · obtain rfl : k = 0 := by simpa [empty] using hk
    rfl

theorem newCustomTable_empty (snappy : Snappy) (maxFileSize : Nat) (noCompression : Bool) :
    ∃ t, newCustomTable ⟨[], fun _ => none⟩ maxFileSize noCompression = .ok t ∧
      Holds snappy t [] ∧ SameConfig (empty maxFileSize noCompression) t ∧ t.headId = 0 := by
  have hdata : ∀ k, k ≠ (empty maxFileSize noCompression).headId →
      none = (empty maxFileSize noCompression).data k := by
    intro k hk
    have hk : k ≠ 0 := hk
    simp [empty, hk]
  obtain ⟨t, m, heq, -, -, hlayout, hconf, hslack, hid⟩ : ∃ t m, newCustomTable
      ⟨[], fun _ => none⟩ maxFileSize noCompression = .ok t ∧ 0 ≤ m ∧ m ≤ 0 ∧
      t.Layout (take m []) ∧ SameConfig (empty maxFileSize noCompression) t ∧ t.slack = [] ∧
      t.headId ≤ 0 :=
    repair_cut (b := 0) (layout_empty maxFileSize noCompression) (by simp [empty, indexEntrySize])
      (by rw [entries_empty]; rfl) (le_refl 0) hdata rfl rfl (Nat.zero_le _) (le_refl 0)
      (Or.inr ⟨rfl, rfl⟩) (by simp)
  exact ⟨t, heq, ⟨⟨[], by simpa using hlayout, (fun p hp => by cases hp), rfl⟩, hslack⟩, hconf,
    Nat.le_zero.mp hid⟩

theorem repairIndex_take {ps : List Placed} (h : t.Layout ps) (hoffset : t.itemOffset = 0)
    (htail : t.tailId = 0) {a : Nat} (ha : a = 0 ∨ indexEntrySize ≤ a) :
    ∃ j, j ≤ ps.length ∧ repairIndex (t.index.take a) =
      ((t.entries ps).take (j + 1)).flatMap marshallBinary := by
  rcases ha with rfl | ha
  · refine ⟨0, Nat.zero_le _, ?_⟩
    simp only [entries, hoffset, htail, Nat.zero_add, take_succ_cons, take_zero]
    rfl
  · have hlen : t.index.length = (ps.length + 1) * 6 := h.length_index
    have hcut : (t.index.take a).length = min a ((ps.length + 1) * 6) := by
      rw [length_take, hlen]
    simp only [indexEntrySize] at ha
    refine ⟨(t.index.take a).length / 6 - 1, by omega, ?_⟩
    have hround : (t.index.take a).length - (t.index.take a).length % 6 =
        ((t.index.take a).length / 6 - 1 + 1) * 6 := by omega
    rw [repairIndex, if_neg (by omega), indexEntrySize, hround, take_take,
      Nat.min_eq_left (by omega), h.index]
    exact take_records length_marshallBinary _ _

theorem exec_holds (h : Holds snappy t blobs) (hoffset : t.itemOffset = 0)
    (hfiles : t.headId + 1 < 2 ^ 16) {op : Op}
    (hshort : ∀ item b, op = .append item b → (t.stored snappy b).length < 2 ^ 32) {t' : Table}
    (heq : op.exec snappy t = .ok t') :
    Holds snappy t' (op.write blobs) ∧ SameConfig t t' := by
  cases op with
  | append item blob =>
    by_cases hitem : t.items = item
    · subst hitem
      obtain ⟨t1, happ, hholds, hconf, -⟩ := h.append (hshort _ _ rfl) hfiles (Or.inl hoffset)
      simp only [Op.exec, happ, Except.ok.injEq] at heq
      subst heq
      exact ⟨hholds, hconf⟩
    · simp [Op.exec, append, hitem] at heq
  | truncate items =>
    obtain ⟨hholds, hconf, -⟩ := h.truncate hoffset items
    simp only [Op.exec, Except.ok.injEq] at heq
    subst heq
    exact ⟨hholds, hconf⟩

/-- At every moment of a run there are fewer than 65536 data files. -/
def FewFiles (snappy : Snappy) (t : Table) : List Op → Prop
  | [] => t.headId + 1 < 2 ^ 16
  | op :: ops => t.headId + 1 < 2 ^ 16 ∧ ∀ t', op.exec snappy t = .ok t' → FewFiles snappy t' ops

def ShortBlobs (snappy : Snappy) (t : Table) (ops : List Op) : Prop :=
  ∀ item b, Op.append item b ∈ ops → (t.stored snappy b).length < 2 ^ 32

theorem run_holds (ops : List Op) : ∀ {t : Table} {blobs : List Bytes}, Holds snappy t blobs →
    t.itemOffset = 0 → FewFiles snappy t ops → ShortBlobs snappy t ops →
    ∀ {t' : Table}, run snappy t ops = .ok t' →
      Holds snappy t' (ops.foldl Op.write blobs) ∧ SameConfig t t' ∧ t'.headId + 1 < 2 ^ 16 := by
  induction ops with
  | nil =>
    intro t blobs h _ hfew _ t' heq
    cases heq
    exact ⟨h, ⟨rfl, rfl, rfl, rfl⟩, hfew⟩
  | cons op ops ih =>
    intro t blobs h hoffset hfew hshort t' heq
    obtain ⟨t1, hop, heq⟩ := Run.foldlM_cons_eq_ok heq
    obtain ⟨h1, hconf1⟩ := exec_holds h hoffset hfew.1
      (fun item b hb => hshort item b (hb ▸ mem_cons_self)) hop
    have hshort1 : ShortBlobs snappy t1 ops := fun item b hb => by
      rw [hconf1.stored]
      exact hshort item b (mem_cons_of_mem _ hb)
    obtain ⟨h', hconf', hid⟩ := ih h1 (hconf1.itemOffset.trans hoffset) (hfew.2 t1 hop) hshort1 heq
    exact ⟨h', hconf1.trans hconf', hid⟩

theorem repair_short_index (snappy : Snappy) {disk : Disk} (hpos : 0 < disk.index.length)
    (hlt : disk.index.length < indexEntrySize) (maxFileSize : Nat) (noCompression : Bool) :
    ∃ t', newCustomTable disk maxFileSize noCompression = .ok t' ∧ t'.items = 2 ^ 64 - 1 ∧
      ∀ i, i < t'.items → t'.retrieve snappy i = .error .eof := by
  have hindex : repairIndex disk.index = [] := by
    rw [repairIndex, if_neg (by omega), Nat.mod_eq_of_lt hlt, Nat.sub_self, take_zero]
  have hread : ∀ i, readEntry [] i = none := fun i => by simp [readEntry, indexEntrySize]
  set t1 : Table := openForAppend ⟨0, noCompression, maxFileSize, [], 0, 0, 0, 0, [], disk.data⟩ 0
    with ht1
  have hdata : (t1.data 0).isSome = true :=
    filesExist_openForAppend (fun x hx => by simp at hx) 0 0
      (mem_files_openForAppend.mpr (Or.inl rfl))
  have hconf : SameConfig _ t1 := openForAppend_config 0
  obtain ⟨t2, hloop, hconf2, hindex2, hdata2⟩ : ∃ t2,
      repairLoop 0 t1 ⟨0, 0⟩ ((t1.data 0).getD []).length = .ok (t2, 0, ⟨0, 0⟩) ∧
      SameConfig t1 t2 ∧ t2.index = t1.index ∧ (t2.data 0).isSome = true := by
    rw [repairLoop]
    by_cases hzero : 0 = ((t1.data 0).getD []).length
    · exact ⟨t1, if_pos hzero, ⟨rfl, rfl, rfl, rfl⟩, rfl, hdata⟩
    · rw [if_neg hzero, if_pos (show 0 < ((t1.data 0).getD []).length by omega)]
      exact ⟨_, rfl, ⟨rfl, rfl, rfl, rfl⟩, rfl, by simp [truncateHead]⟩
  set t3 : Table := { t2 with items := 2 ^ 64 - 1, headBytes := 0, headId := 0 } with ht3
  have htail : t3.tailId = 0 := hconf2.tailId.trans hconf.tailId
  have hoffset : t3.itemOffset = 0 := hconf2.itemOffset.trans hconf.itemOffset
  obtain ⟨files, hpre, -⟩ := preopen_eq (t := t3) (le_of_eq htail) fun k _ hk => by
    obtain rfl : k = 0 := Nat.le_zero.mp hk
    exact hdata2
  refine ⟨{ t3 with files := files }, ?_, rfl, fun i hi => ?_⟩
  · rw [newCustomTable, repair]
    simp only [hindex, length_nil, Nat.zero_div, if_true, getD_none, hread]
    show (repairLoop 0 t1 ⟨0, 0⟩ ((t1.data 0).getD []).length >>= fun r => _) = _
    rw [hloop]
    have hitems : (t2.itemOffset + (0 + (2 ^ 64 - 1)) % 2 ^ 64) % 2 ^ 64 = 2 ^ 64 - 1 := by
      rw [show t2.itemOffset = 0 from hoffset]
      norm_num
    show preopen { t2 with
      items := (t2.itemOffset + (0 + (2 ^ 64 - 1)) % 2 ^ 64) % 2 ^ 64
      headBytes := 0
      headId := 0 } = _
    rw [hitems]
    exact hpre
  · have hempty : t2.index = [] := hindex2.trans (openForAppend_index 0)
    have hi : ¬ t3.items ≤ i := Nat.not_le.mpr hi
    rw [retrieve, if_neg hi, if_neg (show ¬ t3.itemOffset > i by rw [hoffset]; omega)]
    have hbounds : ∀ j, getBounds { t3 with files := files } j = .error .eof := fun j => by
      rw [getBounds, show ({ t3 with files := files } : Table).index = [] from hempty, hread, hread]
    rw [hbounds]
    rfl

/-- After a crash, a table opens with some of its first items, and more can be appended. -/
structure Recovered (snappy : Snappy) (t t' : Table) (blobs : List Bytes) : Prop where
  items : t'.items ≤ t.items
  retrieve : ∀ i, i < t'.items → ∃ blob, blobs[i]? = some blob ∧ t'.retrieve snappy i = .ok blob
  append : ∀ blob, (t'.stored snappy blob).length < 2 ^ 32 →
    ∃ t'', t'.append snappy t'.items blob none = (.ok (), t'') ∧
      t''.retrieve snappy t'.items = .ok blob

theorem Holds.recovered (hs : snappy.RoundTrips) {m : Nat} {t' : Table}
    (h : Holds snappy t' (blobs.take m)) (hoffset : t'.itemOffset = 0)
    (hitems : t.items = blobs.length) (hfiles : t'.headId + 1 < 2 ^ 16) :
    Recovered snappy t t' blobs := by
  have hlen : t'.items = (blobs.take m).length := by rw [h.1.items, hoffset, Nat.zero_add]
  refine ⟨?_, fun i hi => ?_, fun blob hblob => ?_⟩
  · rw [hlen, hitems, length_take]
    exact Nat.min_le_right _ _
  · obtain ⟨blob, hb⟩ : ∃ blob, (blobs.take m)[i]? = some blob :=
      ⟨_, List.getElem?_eq_getElem (by omega)⟩
    have hread := h.1.retrieve hs hb
    rw [hoffset, Nat.zero_add] at hread
    refine ⟨blob, ?_, hread⟩
    rw [List.getElem?_take] at hb
    split at hb
    · exact hb
    · cases hb
  · obtain ⟨t'', heq, -, -, hread, -⟩ := h.1.append hblob hfiles (Or.inl hoffset)
    rw [lands_of_slack h.2, restored_stored hs] at hread
    exact ⟨t'', heq, hread⟩

/-- A table survives exactly the crashes that leave the first entry of the index, or none of it. -/
theorem crash_recovers (hs : snappy.RoundTrips) (maxFileSize : Nat) (noCompression : Bool)
    {t₀ : Table} (hnew : newCustomTable ⟨[], fun _ => none⟩ maxFileSize noCompression = .ok t₀)
    (ops : List Op) (hrun : run snappy t₀ ops = .ok t) (hfew : FewFiles snappy t₀ ops)
    (hshort : ShortBlobs snappy t₀ ops) (hsize : t.index.length < 2 ^ 63) (a b : Nat) :
    (∃ t', newCustomTable (t.crash a b) maxFileSize noCompression = .ok t' ∧
      Recovered snappy t t' (appended ops)) ↔ a = 0 ∨ indexEntrySize ≤ a := by
  obtain ⟨t₁, hnew₁, hempty, hconf₁, -⟩ := newCustomTable_empty snappy maxFileSize noCompression
  obtain rfl : t₁ = t₀ := Except.ok.inj (hnew₁.symm.trans hnew)
  obtain ⟨hholds, hconf, hid⟩ := run_holds ops hempty hconf₁.itemOffset hfew hshort hrun
  have hconf := hconf₁.trans hconf
  have hoffset : t.itemOffset = 0 := hconf.itemOffset
  have htail : t.tailId = 0 := hconf.tailId
  have hitems : t.items = (appended ops).length := by
    rw [hholds.1.items, hoffset, Nat.zero_add]
    rfl
  constructor
  · rintro ⟨t', hopen, hrec⟩
    by_contra ha
    rw [not_or, Nat.not_le, indexEntrySize] at ha
    have hlen : t.index.length = (_ + 1) * 6 := hholds.1.length_index
    have hcut : (t.crash a b).index.length = a := by
      show (t.index.take a).length = a
      rw [length_take]
      omega
    obtain ⟨t'', hopen', hmax, -⟩ := repair_short_index snappy
      (show 0 < (t.crash a b).index.length by omega)
      (show (t.crash a b).index.length < 6 by omega) maxFileSize noCompression
    obtain rfl : t' = t'' := Except.ok.inj (hopen.symm.trans hopen')
    have hle := hrec.items
    have hlen' : (ops.foldl Op.write []).length = (appended ops).length := rfl
    omega
  · intro ha
    obtain ⟨⟨ps, hl, hfirst, hps⟩, -⟩ := hholds
    obtain ⟨j, hj, hindex⟩ := repairIndex_take hl hoffset htail ha
    have hzero : (t.entries ps)[0]? = some ⟨0, 0⟩ := by simp [entries, hoffset, htail]
    have hdata : ∀ k, k ≠ t.headId → (t.crash a b).data k = t.data k := fun k hk =>
      Function.update_of_ne hk _ _
    have hhead : ((t.crash a b).data t.headId).getD [] = t.head.take b := by simp [crash]
    obtain ⟨t', m, hopen, -, hmj, hl', hconf', hslack, hid'⟩ := repair_cut hl hsize hindex hj hdata
      hhead hzero (Nat.zero_le _) (Nat.zero_le j) (Or.inr ⟨hoffset, htail⟩)
      fun p _ => htail ▸ Nat.zero_le _
    have hholds' : Holds snappy t' ((appended ops).take m) := by
      refine ⟨⟨ps.take m, hl', (hfirst.take m).config hconf', ?_⟩, hslack⟩
      rw [hconf'.stored, map_take, map_take, hps]
      rfl
    refine ⟨t', ?_, hholds'.recovered hs (hconf'.itemOffset.trans hoffset) hitems (by omega)⟩
    rw [← hopen, hconf.maxFileSize, hconf.noCompression]
    rfl

theorem long_blob_lost {blob : Bytes} (hlen : blob.length = 2 ^ 32) (maxFileSize : Nat) :
    ∃ t', (empty maxFileSize true).append snappy 0 blob none = (.ok (), t') ∧
      t'.retrieve snappy 0 = .ok [] := by
  have hbLen : blob.length % 2 ^ 32 = 0 := by rw [hlen]; exact Nat.mod_self _
  have hfull : (empty maxFileSize true).full 0 = false := by simp [full, empty]
  have happ : (empty maxFileSize true).append snappy 0 blob none =
      (empty maxFileSize true).appendHead blob none := by
    rw [append, if_neg (by simp [empty])]
    simp only [stored, show (empty maxFileSize true).noCompression = true from rfl, if_true, hbLen,
      hfull, Bool.false_eq_true, if_false]
  set t' : Table := { (empty maxFileSize true).writeHead blob with
    headBytes := 0
    index := [(⟨0, 0⟩ : IndexEntry), ⟨0, 0⟩].flatMap marshallBinary
    items := 1 } with ht'
  have hhead : (empty maxFileSize true).appendHead blob none = (.ok (), t') := by
    simp only [appendHead, hbLen]
    rfl
  have hfits : ∀ e ∈ [(⟨0, 0⟩ : IndexEntry), ⟨0, 0⟩], e.Fits := by
    intro e he
    obtain rfl : e = ⟨0, 0⟩ := by simpa using he
    exact ⟨by decide, by decide⟩
  have hbounds : t'.getBounds 0 = .ok (0, 0, 0) := by
    rw [getBounds, ht', readEntry_records hfits, readEntry_records hfits]
    rfl
  have hread : ∀ file, readAt file 0 (sub32 0 0) = .ok [] := fun file => by simp [readAt, sub32]
  refine ⟨t', happ.trans hhead, ?_⟩
  have hzero : ¬ t'.itemOffset > 0 := by simp [ht', empty, writeHead]
  have hmem : 0 ∈ t'.files := by simp [ht', empty, writeHead]
  have hblob : (if 0 ∈ t'.files then do
        let blob ← readAt ((t'.data 0).getD []) 0 (sub32 0 0)
        t'.restored snappy blob
      else .error (.missingDataFile 0)) = .ok [] := by
    rw [if_pos hmem, hread]
    rfl
  rw [retrieve, if_neg (by simp [ht']), if_neg hzero, Nat.zero_sub, hbounds]
  exact hblob

def plain : Snappy := ⟨id, some⟩

/-- Two items, of one byte each. -/
def twoAppends : List Op := [.append 0 [1], .append 1 [2]]

/-- The crash cuts the entry of the second item: the first one is still there. -/
theorem crash_recovers_first : ∃ t₀ t, newCustomTable ⟨[], fun _ => none⟩ 10 true = .ok t₀ ∧
      run plain t₀ twoAppends = .ok t ∧
      ∃ t', newCustomTable (t.crash 15 2) 10 true = .ok t' ∧ t'.items = 1 ∧
        t'.retrieve plain 0 = .ok [1] ∧
        ∃ t'', t'.append plain 1 [3] none = (.ok (), t'') ∧ t''.retrieve plain 1 = .ok [3] := by
  refine ⟨_, _, rfl, rfl, ?_⟩
  have hs : plain.RoundTrips := fun b => rfl
  obtain ⟨t', hopen, hrec⟩ := (crash_recovers hs 10 true rfl twoAppends rfl (by
      refine ⟨by decide, ?_⟩
      rintro _ ⟨⟩
      refine ⟨by decide, ?_⟩
      rintro _ ⟨⟩
      exact of_decide_eq_true (p := (_ : Nat) < 2 ^ 16) rfl) (by
      intro item b hb
      rcases mem_pair.mp hb with hb | hb <;> cases hb <;> decide) (by decide) 15 2).mpr
    (Or.inr (by decide))
  have hitems : t'.items = 1 := by
    have hmap := congrArg (Except.map Table.items) hopen
    exact Except.ok.inj (hmap.symm.trans (by decide +kernel))
  obtain ⟨blob, hblob, hread⟩ := hrec.retrieve 0 (by omega)
  cases hblob
  have happend := hrec.append [3]
  rw [hitems] at happend
  refine ⟨t', hopen, hitems, hread, happend ?_⟩
  simp [stored, plain]

/-- One item is appended, and the crash leaves three bytes of the index: it opens with as many items
as a 64-bit number can count, none of which can be read. -/
theorem crash_short_index : ∃ t₀ t, newCustomTable ⟨[], fun _ => none⟩ 10 true = .ok t₀ ∧
      run plain t₀ [.append 0 [1]] = .ok t ∧ t.items = 1 ∧
      ∃ t', newCustomTable (t.crash 3 1) 10 true = .ok t' ∧ t'.items = 2 ^ 64 - 1 ∧
        t'.retrieve plain 0 = .error .eof := by
  refine ⟨_, _, rfl, rfl, rfl, ?_⟩
  refine Exists.imp (fun t' h => ⟨h.1, h.2.1, h.2.2 0 (by rw [h.2.1]; decide)⟩)
    (repair_short_index plain ?_ ?_ 10 true)
  · decide
  · decide

end Crash

end Table

end GethComments.Freezer
