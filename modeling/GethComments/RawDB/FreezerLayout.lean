import GethComments.RawDB.FreezerTable

/-!
# The layout of a freezer table

Where the items of a table are in its data files, and what the operations do to it. The head file
may have bytes behind the last item (`slack`).

* `Layout`: the index and the data files agree on a list of places;
* `retrieve_layout`: an item is read from its place; the first one, if it begins where the first
  entry of the index says (`FirstBegins`);
* `append_layout`: a new item is placed behind the others, in a new file if it has to be;
* `truncate_layout`: what remains after `truncate`, if no items were removed at the tail.
-/

namespace GethComments.Freezer

open Function Option IndexEntry List

open GethComments.Records

/-- An item in a data file. -/
structure Placed where
  file : Nat
  start : Nat
  bytes : Bytes

variable {p : Placed}

namespace Placed

def stop (p : Placed) : Nat := p.start + p.bytes.length

/-- The entry of the item in the index: where it ends. -/
def entry (p : Placed) : IndexEntry := ⟨p.file, p.stop⟩

/-- The item ends before the other one. -/
def Before (p q : Placed) : Prop := p.file < q.file ∨ p.file = q.file ∧ p.stop ≤ q.stop

def In (data : Nat → Option Bytes) (p : Placed) : Prop :=
  ∃ c, data p.file = some c ∧ p.stop ≤ c.length ∧ (c.take p.stop).drop p.start = p.bytes

theorem In.of_take {data data' : Nat → Option Bytes} (h : p.In data)
    (hd : ∀ c, data p.file = some c → p.stop ≤ c.length →
      ∃ c', data' p.file = some c' ∧ p.stop ≤ c'.length ∧ c'.take p.stop = c.take p.stop) :
    p.In data' := by
  obtain ⟨c, hc, hle, hbytes⟩ := h
  obtain ⟨c', hc', hle', htake⟩ := hd c hc hle
  exact ⟨c', hc', hle', by rw [htake, hbytes]⟩

end Placed

/-- The next item begins at the end of the last one, or in a new file. -/
def Begins (e : IndexEntry) (file start : Nat) : Prop :=
  start = if file = e.filenum then e.offset else 0

theorem readEntry_records {es : List IndexEntry} (h : ∀ e ∈ es, e.Fits) (i : Nat) :
    readEntry (es.flatMap marshallBinary) i = es[i]? := by
  have hlen := length_records length_marshallBinary es
  rw [readEntry, hlen]
  by_cases hi : i < es.length
  · have hle : (i + 1) * indexEntrySize ≤ es.length * indexEntrySize := Nat.mul_le_mul_right _ hi
    rw [if_pos hle, drop_records length_marshallBinary, drop_eq_getElem_cons hi,
      flatMap_cons, take_append_of_le_length (by rw [length_marshallBinary]),
      take_of_length_le (by rw [length_marshallBinary]),
      unmarshalBinary_marshallBinary (h _ (getElem_mem hi)),
      List.getElem?_eq_getElem hi]
  · have hlt : ¬ (i + 1) * indexEntrySize ≤ es.length * indexEntrySize := by
      simp only [indexEntrySize]
      omega
    rw [if_neg hlt, List.getElem?_eq_none (by omega)]

theorem readEntry_take {es : List IndexEntry} {e : IndexEntry} {m : Nat} (h : ∀ e ∈ es, e.Fits)
    (he : es[m]? = some e) :
    readEntry ((es.take (m + 1)).flatMap marshallBinary) m = some e := by
  rw [readEntry_records fun e he => h e (mem_of_mem_take he), List.getElem?_take,
    if_pos (Nat.lt_succ_self m), he]

theorem isSome_update {data : Nat → Option Bytes} {k n : Nat} {c : Bytes}
    (h : k ≠ n → (data k).isSome = true) : (update data n (some c) k).isSome = true := by
  by_cases hk : k = n
  · simp [hk]
  · simpa [hk] using h hk

namespace Table

/-- The entries of the index: the first one has what was removed at the tail. -/
def entries (t : Table) (ps : List Placed) : List IndexEntry :=
  ⟨t.itemOffset, t.tailId⟩ :: ps.map Placed.entry

/-- The bytes of the head file behind the last item. -/
def slack (t : Table) : Bytes := t.head.drop t.headBytes

/-- The first item begins where the first entry of the index says. -/
def FirstBegins (t : Table) (ps : List Placed) : Prop :=
  ∀ p, ps[0]? = some p → Begins ⟨t.itemOffset, t.tailId⟩ p.file p.start

/-- The table holds the items at these places. -/
structure Layout (t : Table) (ps : List Placed) : Prop where
  index : t.index = (t.entries ps).flatMap marshallBinary
  fits : ∀ e ∈ t.entries ps, e.Fits
  items : t.items = t.itemOffset + ps.length
  begins : ∀ (i : Nat) (p q : Placed), ps[i]? = some p → ps[i + 1]? = some q →
    Begins p.entry q.file q.start
  sorted : ps.Pairwise Placed.Before
  data : ∀ p ∈ ps, p.In t.data
  opened : ∀ p ∈ ps, p.file ∈ t.files
  behind : ∀ p ∈ ps, p.file < t.headId ∨ p.file = t.headId ∧ p.stop ≤ t.headBytes
  head : ∃ c, t.data t.headId = some c ∧ t.headBytes ≤ c.length
  next : ∀ e, (t.entries ps)[ps.length]? = some e → Begins e t.headId t.headBytes
  head_opened : t.headId ∈ t.files
  files_le : ∀ k ∈ t.files, k ≤ t.headId
  present : ∀ k, t.tailId ≤ k → k ≤ t.headId → (t.data k).isSome = true
  head_fits : IndexEntry.Fits ⟨t.headId, t.headBytes⟩

variable {snappy : Snappy} {t : Table} {ps : List Placed}

theorem getElem?_entries (i : Nat) : (t.entries ps)[i + 1]? = ps[i]?.map Placed.entry := by
  simp [entries]

theorem length_entries : (t.entries ps).length = ps.length + 1 := by simp [entries]

theorem Layout.length_index (h : t.Layout ps) :
    t.index.length = (ps.length + 1) * indexEntrySize := by
  rw [h.index, length_records length_marshallBinary, length_entries]

variable {i m : Nat} {blob : Bytes} {e : IndexEntry}

theorem exists_entry (hm : m ≤ ps.length) : ∃ e, (t.entries ps)[m]? = some e :=
  ⟨_, List.getElem?_eq_getElem (by rw [length_entries]; omega)⟩

/-! ## Reading -/

theorem getBounds_entry (h : t.Layout ps) (he : (t.entries ps)[i]? = some e)
    (hp : ps[i]? = some p) :
    t.getBounds i = .ok (if p.file = e.filenum then e.offset else 0, p.stop, p.file) := by
  have hnext : (t.entries ps)[i + 1]? = some p.entry := by rw [getElem?_entries, hp, map_some]
  rw [getBounds, h.index, readEntry_records h.fits, readEntry_records h.fits, he, hnext]
  by_cases hfile : e.filenum = p.file
  · simp [Placed.entry, hfile]
  · simp [Placed.entry, hfile, Ne.symm hfile]

theorem getBounds_layout (h : t.Layout ps) (hfirst : i = 0 → t.FirstBegins ps)
    (hp : ps[i]? = some p) : t.getBounds i = .ok (p.start, p.stop, p.file) := by
  obtain ⟨e, he, hbegins⟩ : ∃ e, (t.entries ps)[i]? = some e ∧ Begins e p.file p.start := by
    cases i with
    | zero => exact ⟨_, rfl, hfirst rfl p hp⟩
    | succ i =>
      have hi := (List.getElem?_eq_some_iff.mp hp).1
      have hprev := List.getElem?_eq_getElem (l := ps) (show i < ps.length by omega)
      exact ⟨_, by rw [getElem?_entries, hprev, map_some], h.begins i _ p hprev hp⟩
  rw [getBounds_entry h he hp, ← hbegins]

theorem sub32_add {start len : Nat} (h : start + len < 2 ^ 32) :
    sub32 (start + len) start = len := by
  unfold sub32
  omega

theorem readAt_placed {c : Bytes} (hle : p.stop ≤ c.length)
    (hbytes : (c.take p.stop).drop p.start = p.bytes) :
    readAt c p.start p.bytes.length = .ok p.bytes := by
  have htake : (c.drop p.start).take p.bytes.length = p.bytes := by
    rw [drop_take, Placed.stop, Nat.add_sub_cancel_left] at hbytes
    exact hbytes
  rw [readAt, if_pos (show p.start + p.bytes.length ≤ c.length from hle), htake]

theorem restored_stored (hs : snappy.RoundTrips) (t : Table) (blob : Bytes) :
    t.restored snappy (t.stored snappy blob) = .ok blob := by
  rw [restored, stored]
  by_cases hn : t.noCompression = true
  · simp [hn]
  · simp [hn, hs blob]

theorem stop_lt (h : t.Layout ps) (hp : p ∈ ps) : p.stop < 2 ^ 32 :=
  (h.fits p.entry (mem_cons_of_mem _ (mem_map_of_mem hp))).2

theorem retrieve_eq (h : t.Layout ps) (hp : ps[i]? = some p) {start : Nat}
    (hbounds : t.getBounds i = .ok (start, p.stop, p.file)) :
    t.retrieve snappy (t.itemOffset + i) =
      readAt ((t.data p.file).getD []) start (sub32 p.stop start) >>= t.restored snappy := by
  obtain ⟨hi, -⟩ := List.getElem?_eq_some_iff.mp hp
  have hitems : ¬ t.items ≤ t.itemOffset + i := by rw [h.items]; omega
  have hopen : p.file ∈ t.files := h.opened p (List.mem_of_getElem? hp)
  rw [retrieve, if_neg hitems, if_neg (by omega), Nat.add_sub_cancel_left, hbounds]
  exact if_pos hopen

theorem retrieve_layout (h : t.Layout ps) (hfirst : i = 0 → t.FirstBegins ps)
    (hp : ps[i]? = some p) :
    t.retrieve snappy (t.itemOffset + i) = t.restored snappy p.bytes := by
  have hmem : p ∈ ps := List.mem_of_getElem? hp
  obtain ⟨c, hc, hle, hbytes⟩ := h.data p hmem
  have hlen : sub32 p.stop p.start = p.bytes.length := sub32_add (stop_lt h hmem)
  rw [retrieve_eq h hp (getBounds_layout h hfirst hp), hc, getD_some, hlen,
    readAt_placed hle hbytes]
  rfl

/-- Without compression the first item is read only if it begins where the index says. -/
theorem firstBegins_of_retrieve (h : t.Layout ps) (hraw : t.noCompression = true)
    (hp : ps[0]? = some p) (hread : t.retrieve snappy t.itemOffset = .ok p.bytes) :
    t.FirstBegins ps := by
  intro q hq
  obtain rfl : p = q := some.inj (hp.symm.trans hq)
  have hfit : t.tailId < 2 ^ 32 := (h.fits _ mem_cons_self).2
  have hstop := stop_lt h (List.mem_of_getElem? hp)
  have hget : t.retrieve snappy (t.itemOffset + 0) = _ :=
    retrieve_eq h hp (getBounds_entry h rfl hp)
  rw [Nat.add_zero, hread] at hget
  show p.start = if p.file = t.itemOffset then t.tailId else 0
  set start := if p.file = t.itemOffset then t.tailId else 0 with hstart
  have hlt : start < 2 ^ 32 := by
    rw [hstart]
    split
    · exact hfit
    · decide
  -- as many bytes are read as are between the bounds
  have hlen : p.bytes.length = sub32 p.stop start := by
    rw [readAt] at hget
    split at hget
    case isTrue hle =>
      have hbytes : p.bytes = (((t.data p.file).getD []).drop start).take (sub32 p.stop start) := by
        simpa [restored, hraw, bind, Except.bind] using hget
      rw [hbytes, length_take, length_drop, Nat.min_eq_left (by omega)]
    case isFalse => cases hget
  rw [Placed.stop] at hlen hstop
  unfold sub32 at hlen
  omega

/-! ## Writing -/

theorem bound_cases (he : (t.entries ps)[m]? = some e) :
    m = 0 ∧ e = ⟨t.itemOffset, t.tailId⟩ ∨ ∃ q ∈ ps, e = q.entry := by
  cases m with
  | zero => exact Or.inl ⟨rfl, by simpa [entries] using he.symm⟩
  | succ n =>
    rw [getElem?_entries, map_eq_some_iff] at he
    obtain ⟨q, hq, rfl⟩ := he
    exact Or.inr ⟨q, List.mem_of_getElem? hq, rfl⟩

section

variable (h : t.Layout ps)
include h

theorem file_le_headId (hp : p ∈ ps) : p.file ≤ t.headId := by
  rcases h.behind p hp with hlt | ⟨heq, -⟩
  · exact hlt.le
  · exact heq.le

theorem filenum_le_headId (hoffset : t.itemOffset = 0)
    (he : (t.entries ps)[m]? = some e) : e.filenum ≤ t.headId := by
  rcases bound_cases he with ⟨-, rfl⟩ | ⟨q, hq, rfl⟩
  · simp [hoffset]
  · exact file_le_headId h hq

theorem last_entry (he : (t.entries ps)[ps.length]? = some e) :
    ps = [] ∧ e = ⟨t.itemOffset, t.tailId⟩ ∨ e.filenum ≤ t.headId := by
  rcases bound_cases he with ⟨hn, rfl⟩ | ⟨q, hq, rfl⟩
  · exact Or.inl ⟨List.length_eq_zero_iff.mp hn, rfl⟩
  · exact Or.inr (file_le_headId h hq)

theorem nextFile_eq (hid : t.headId + 1 < 2 ^ 16) : t.nextFile = { t with
      files := t.headId :: ((t.headId + 1) :: t.files).filter (· ≠ t.headId)
      data := update t.data (t.headId + 1) (some [])
      headBytes := 0
      headId := t.headId + 1 } := by
  have hmod : (t.headId + 1) % 2 ^ 32 = t.headId + 1 := Nat.mod_eq_of_lt (by omega)
  have hnot : t.headId + 1 ∉ t.files := fun hmem => by
    have := h.files_le _ hmem
    omega
  obtain ⟨c, hc, -⟩ := h.head
  have hrelease : t.headId ∉ ((t.headId + 1) :: t.files).filter (· ≠ t.headId) := by simp
  have hdata : update t.data (t.headId + 1) (some []) t.headId = some c := by
    rw [update_of_ne (by omega), hc]
  simp only [nextFile, hmod, openTruncated, hnot, if_false, releaseFile, openForReadOnly, hrelease,
    hdata, isNone_some, Bool.false_eq_true]

theorem slack_nextFile (hid : t.headId + 1 < 2 ^ 16) : t.nextFile.slack = [] := by
  rw [nextFile_eq h hid]
  simp [slack, head]

theorem nextFile_layout (hid : t.headId + 1 < 2 ^ 16)
    (hfirst : ps = [] → t.headId + 1 = t.itemOffset → t.tailId = 0) : t.nextFile.Layout ps := by
  rw [nextFile_eq h hid]
  refine ⟨h.index, h.fits, h.items, h.begins, h.sorted, fun p hp => ?_, fun p hp => ?_,
    fun p hp => ?_, ⟨[], by simp, le_refl 0⟩, fun e he => ?_, by simp, fun k hk => ?_,
    fun k hk hle => ?_, ⟨hid, by simp⟩⟩
  · refine (h.data p hp).of_take fun c hc hle => ⟨c, ?_, hle, rfl⟩
    have hne : p.file ≠ t.headId + 1 := by
      have := file_le_headId h hp
      omega
    exact (update_of_ne hne _ _).trans hc
  · by_cases hfile : p.file = t.headId
    · simp [hfile]
    · simp [hfile, h.opened p hp]
  · rcases h.behind p hp with hlt | ⟨heq, -⟩
    · exact Or.inl (by simpa using hlt.trans (Nat.lt_succ_self _))
    · exact Or.inl (by simp [heq])
  · show (0 : Nat) = if t.headId + 1 = e.filenum then e.offset else 0
    rcases last_entry h he with ⟨hnil, rfl⟩ | hle
    · split
      case isTrue heq => exact (hfirst hnil heq).symm
      case isFalse => rfl
    · rw [if_neg (by omega)]
  · have hk : k = t.headId ∨ k = t.headId + 1 ∨ k ∈ t.files := by
      simp only [mem_cons, mem_filter] at hk
      tauto
    rcases hk with rfl | rfl | hk
    · exact Nat.le_succ _
    · exact le_refl _
    · exact (h.files_le k hk).trans (Nat.le_succ _)
  · have hle : k ≤ t.headId + 1 := hle
    exact isSome_update fun hne => h.present k hk (by omega)

/-- The item is read from the end of the last one, where the bytes behind it come first. -/
theorem appendHead_layout {b : Bytes} (hlen : t.headBytes + b.length < 2 ^ 32) :
    ∃ t', t.appendHead b none = (.ok (), t') ∧
      t'.Layout (ps ++ [⟨t.headId, t.headBytes, (t.slack ++ b).take b.length⟩]) ∧
      t'.headId = t.headId ∧ t'.slack = (t.slack ++ b).drop b.length := by
  obtain ⟨c, hc, hcle⟩ := h.head
  set q : Placed := ⟨t.headId, t.headBytes, (t.slack ++ b).take b.length⟩ with hq
  have hstop : q.stop = t.headBytes + b.length := by simp [hq, Placed.stop]
  have hoffset : (t.headBytes + b.length % 2 ^ 32) % 2 ^ 32 = q.stop := by
    rw [Nat.mod_eq_of_lt (a := b.length) (by omega), Nat.mod_eq_of_lt hlen, hstop]
  have hhead : t.head = c := by rw [head, hc, getD_some]
  have hslack : (c ++ b).drop t.headBytes = t.slack ++ b := by
    rw [drop_append_of_le_length hcle, slack, hhead]
  refine ⟨_, rfl, ?_, rfl, ?_⟩
  rotate_left
  · rw [hoffset]
    have hnew : (t.writeHead b).head = c ++ b := by simp [head, writeHead, hc]
    show (t.writeHead b).head.drop q.stop = _
    rw [hnew, hstop, ← List.drop_drop, hslack]
  rw [hoffset]
  have hentries : t.entries (ps ++ [q]) = t.entries ps ++ [q.entry] := by simp [entries]
  have hqfits : q.entry.Fits := ⟨h.head_fits.1, show q.stop < 2 ^ 32 by omega⟩
  have hget : ∀ i, i < ps.length → (ps ++ [q])[i]? = ps[i]? := fun i hi =>
    List.getElem?_append_left hi
  refine ⟨?_, ?_, ?_, ?_, ?_, forall_mem_append.mpr ⟨fun p hp => ?_, ?_⟩,
    forall_mem_append.mpr ⟨h.opened, forall_mem_singleton.mpr h.head_opened⟩,
    forall_mem_append.mpr ⟨fun p hp => ?_,
      forall_mem_singleton.mpr (Or.inr ⟨rfl, le_refl _⟩)⟩, ?_, ?_, h.head_opened, h.files_le,
    fun k hk hle => isSome_update fun _ => h.present k hk hle, hqfits⟩
  · show t.index ++ q.entry.marshallBinary = (t.entries (ps ++ [q])).flatMap _
    rw [hentries, flatMap_append, h.index]
    simp
  · show ∀ e ∈ t.entries (ps ++ [q]), e.Fits
    rw [hentries]
    exact forall_mem_append.mpr ⟨h.fits, by simpa using hqfits⟩
  · show t.items + 1 = t.itemOffset + (ps ++ [q]).length
    rw [h.items, length_append, length_singleton]
    omega
  · intro i p r hp hr
    have hi : i + 1 < ps.length + 1 := by simpa using (List.getElem?_eq_some_iff.mp hr).1
    rw [hget i (by omega)] at hp
    by_cases hlast : i + 1 = ps.length
    · obtain rfl : q = r := by simpa [hlast] using hr
      exact h.next p.entry (by rw [← hlast, getElem?_entries, hp, map_some])
    · exact h.begins i p r hp (by rwa [hget (i + 1) (by omega)] at hr)
  · rw [pairwise_append]
    refine ⟨h.sorted, by simp, fun p hp q' hq' => ?_⟩
    rw [mem_singleton.mp hq']
    rcases h.behind p hp with hlt | ⟨heq, hle⟩
    · exact Or.inl hlt
    · exact Or.inr ⟨heq, hle.trans (Nat.le_add_right _ _)⟩
  · refine (h.data p hp).of_take fun c' hc' hle => ?_
    by_cases hfile : p.file = t.headId
    · obtain rfl : c = c' := some.inj (by rw [← hc, ← hc', hfile])
      exact ⟨c ++ b, by simp [writeHead, hfile, hhead], by rw [length_append]; omega,
        take_append_of_le_length hle⟩
    · exact ⟨c', (update_of_ne hfile _ _).trans hc', hle, rfl⟩
  · rw [forall_mem_singleton]
    refine ⟨c ++ b, by simp [writeHead, hq, hhead], by rw [hstop, length_append]; omega, ?_⟩
    rw [hstop, List.drop_take, show t.headBytes + b.length - q.start = b.length from
      Nat.add_sub_cancel_left _ _]
    exact congrArg (take b.length) hslack
  · rcases h.behind p hp with hlt | ⟨heq, hle⟩
    · exact Or.inl hlt
    · exact Or.inr ⟨heq, hle.trans (Nat.le_add_right _ _)⟩
  · exact ⟨t.head ++ b, by simp [writeHead], by
      show q.stop ≤ (t.head ++ b).length
      rw [hstop, hhead, length_append]
      omega⟩
  · intro e he
    have he : (t.entries ps ++ [q.entry])[(ps ++ [q]).length]? = some e := hentries ▸ he
    obtain rfl : q.entry = e := by simpa [length_entries] using he
    simp [Begins, Placed.entry, writeHead, hq]

end

/-- The configuration of a table, which no operation changes. -/
structure SameConfig (t t' : Table) : Prop where
  noCompression : t'.noCompression = t.noCompression
  maxFileSize : t'.maxFileSize = t.maxFileSize
  itemOffset : t'.itemOffset = t.itemOffset
  tailId : t'.tailId = t.tailId

theorem SameConfig.trans {t1 t2 t3 : Table} (h : SameConfig t1 t2) (h' : SameConfig t2 t3) :
    SameConfig t1 t3 :=
  ⟨h'.noCompression.trans h.noCompression, h'.maxFileSize.trans h.maxFileSize,
    h'.itemOffset.trans h.itemOffset, h'.tailId.trans h.tailId⟩

theorem FirstBegins.config {t' : Table} (hfirst : t.FirstBegins ps) (h : SameConfig t t') :
    t'.FirstBegins ps := by
  intro p hp
  rw [h.itemOffset, h.tailId]
  exact hfirst p hp

theorem FirstBegins.snoc (hfirst : t.FirstBegins ps) (h : t.Layout ps) (b : Bytes) :
    t.FirstBegins (ps ++ [⟨t.headId, t.headBytes, b⟩]) := by
  intro p hp
  cases ps with
  | nil =>
    obtain rfl : _ = p := by simpa using hp
    exact h.next _ rfl
  | cons q ps => exact hfirst p hp

theorem FirstBegins.take (hfirst : t.FirstBegins ps) (m : Nat) : t.FirstBegins (ps.take m) := by
  intro p hp
  rw [List.getElem?_take] at hp
  split at hp
  · exact hfirst p hp
  · cases hp

/-- A blob can be appended: it is not too long, there are file numbers left, and the first item does
not go to a file whose number is the number of removed items. -/
structure Room (snappy : Snappy) (t : Table) (ps : List Placed) (blob : Bytes) : Prop where
  length : (t.stored snappy blob).length < 2 ^ 32
  files : t.headId + 1 < 2 ^ 16
  first : ps = [] → t.headId + 1 = t.itemOffset → t.tailId = 0

/-- What is read of an appended blob: the bytes behind the last item come first, unless it goes to a
new file. -/
def lands (t : Table) (b : Bytes) : Bytes :=
  if t.full (b.length % 2 ^ 32) = true then b else (t.slack ++ b).take b.length

theorem lands_of_slack (hslack : t.slack = []) (b : Bytes) : t.lands b = b := by
  simp [lands, hslack]

structure Appended (snappy : Snappy) (t : Table) (ps : List Placed) (blob : Bytes) (t' : Table)
    (q : Placed) : Prop where
  ok : t.append snappy t.items blob none = (.ok (), t')
  layout : t'.Layout (ps ++ [q])
  bytes : q.bytes = t.lands (t.stored snappy blob)
  config : SameConfig t t'
  headId : t'.headId ≤ t.headId + 1
  slack : t.slack = [] → t'.slack = []
  first : t.FirstBegins ps → t'.FirstBegins (ps ++ [q])

theorem append_layout (h : t.Layout ps) (hroom : Room snappy t ps blob) :
    ∃ t' q, Appended snappy t ps blob t' q := by
  have hmod := Nat.mod_eq_of_lt hroom.length
  by_cases hfull : t.full (t.stored snappy blob).length = true
  · have hnext := nextFile_layout h hroom.files hroom.first
    have heq := nextFile_eq h hroom.files
    have hlen : t.nextFile.headBytes + (t.stored snappy blob).length < 2 ^ 32 := by
      rw [heq]
      simpa using hroom.length
    have hslack := slack_nextFile h hroom.files
    obtain ⟨t', hok, hlayout, hid, hslack'⟩ := appendHead_layout hnext hlen
    have hconf : SameConfig t t' := by
      cases hok
      rw [heq]
      exact ⟨rfl, rfl, rfl, rfl⟩
    refine ⟨t', _, ?_, hlayout, ?_, hconf, ?_, fun _ => ?_, fun hfirst => ?_⟩
    · simp only [append, ne_eq, not_true_eq_false, if_false, hmod, hfull, if_true, reduceCtorEq]
      exact hok
    · rw [lands, hmod, if_pos hfull, hslack]
      exact take_length
    · rw [hid, heq]
    · simp [hslack', hslack]
    · have hconf' : SameConfig t.nextFile t' := by
        cases hok
        exact ⟨rfl, rfl, rfl, rfl⟩
      have hsame : SameConfig t t.nextFile := by
        rw [heq]
        exact ⟨rfl, rfl, rfl, rfl⟩
      exact ((hfirst.config hsame).snoc hnext _).config hconf'
  · have hlen : t.headBytes + (t.stored snappy blob).length < 2 ^ 32 := by
      have := h.head_fits.2
      simp only [full, decide_eq_true_eq, not_or, not_lt] at hfull
      have := hroom.length
      simp only at *
      omega
    obtain ⟨t', hok, hlayout, hid, hslack'⟩ := appendHead_layout h hlen
    have hconf : SameConfig t t' := by
      cases hok
      exact ⟨rfl, rfl, rfl, rfl⟩
    refine ⟨t', _, ?_, hlayout, ?_, hconf, ?_, fun hslack => ?_, fun hfirst => ?_⟩
    · simp only [append, ne_eq, not_true_eq_false, if_false, hmod, hfull]
      exact hok
    · rw [lands, hmod, if_neg hfull]
    · rw [hid]
      exact Nat.le_succ _
    · simp [hslack', hslack]
    · exact (hfirst.snoc h _).config hconf

theorem Appended.retrieve {t' : Table} {q : Placed} (h : Appended snappy t ps blob t' q)
    (hl : t.Layout ps) :
    t'.retrieve snappy t.items = t.restored snappy (t.lands (t.stored snappy blob)) := by
  have hlast : (ps ++ [q])[ps.length]? = some q := by simp
  have hfirst : ps.length = 0 → t'.FirstBegins (ps ++ [q]) := fun hzero => h.first fun p hp => by
    rw [List.length_eq_zero_iff.mp hzero] at hp
    cases hp
  have hread : t'.retrieve snappy (t'.itemOffset + ps.length) = _ :=
    retrieve_layout h.layout hfirst hlast
  rw [h.config.itemOffset, ← hl.items, h.bytes] at hread
  rw [hread, restored, restored, h.config.noCompression]

/-! ## Truncation -/

theorem le_bound (h : t.Layout ps) (he : (t.entries ps)[m]? = some e) (hp : p ∈ ps.take m) :
    p.file < e.filenum ∨ p.file = e.filenum ∧ p.stop ≤ e.offset := by
  cases m with
  | zero => simp at hp
  | succ n =>
    rw [getElem?_entries, map_eq_some_iff] at he
    obtain ⟨q, hq, rfl⟩ := he
    obtain ⟨hn, hqeq⟩ := List.getElem?_eq_some_iff.mp hq
    obtain ⟨i, hi, rfl⟩ := List.mem_iff_getElem.mp hp
    rw [List.length_take] at hi
    rw [List.getElem_take]
    rcases Nat.lt_or_ge i n with hlt | hge
    · rw [← hqeq]
      exact pairwise_iff_getElem.mp h.sorted i n (by omega) hn hlt
    · obtain rfl : i = n := by omega
      rw [hqeq]
      exact Or.inr ⟨rfl, le_refl _⟩

/-- The table was cut behind an entry of the index. -/
structure Cut (t : Table) (ps : List Placed) (m : Nat) (e : IndexEntry) (t' : Table) : Prop where
  config : SameConfig t t'
  index : t'.index = ((t.entries ps).take (m + 1)).flatMap marshallBinary
  items : t'.items = t.itemOffset + m
  headId : t'.headId = e.filenum
  headBytes : t'.headBytes = e.offset
  head : ∃ c', t'.data e.filenum = some c' ∧ c'.length = e.offset ∧
    ∀ c, t.data e.filenum = some c → 0 < m → c' = c.take e.offset
  data : ∀ p ∈ ps.take m, p.file < e.filenum → t'.data p.file = t.data p.file
  head_opened : e.filenum ∈ t'.files
  opened : ∀ p ∈ ps.take m, p.file ∈ t'.files
  files_le : ∀ k ∈ t'.files, k ≤ e.filenum
  present : ∀ k, t.tailId ≤ k → k ≤ e.filenum → (t'.data k).isSome = true

theorem Cut.layout {t' : Table} (hcut : Cut t ps m e t') (h : t.Layout ps)
    (he : (t.entries ps)[m]? = some e) : t'.Layout (ps.take m) := by
  obtain ⟨hm, -⟩ := List.getElem?_eq_some_iff.mp he
  rw [length_entries] at hm
  have hentries : t'.entries (ps.take m) = (t.entries ps).take (m + 1) := by
    simp [entries, hcut.config.itemOffset, hcut.config.tailId, List.map_take]
  have hlen : (ps.take m).length = m := by simp; omega
  have hget : ∀ i, i ≤ m → (t'.entries (ps.take m))[i]? = (t.entries ps)[i]? := fun i hi => by
    rw [hentries, List.getElem?_take, if_pos (by omega)]
  have hfits : e.Fits := h.fits e (List.mem_of_getElem? he)
  refine ⟨?_, ?_, ?_, ?_, ?_, ?_, hcut.opened, ?_, ?_, ?_, ?_, ?_, ?_, ?_⟩
  · rw [hcut.index, hentries]
  · intro e' he'
    rw [hentries] at he'
    exact h.fits e' (mem_of_mem_take he')
  · rw [hcut.items, hcut.config.itemOffset, hlen]
  · intro i p q hp hq
    have hi : i + 1 < m := by
      have := (List.getElem?_eq_some_iff.mp hq).1
      omega
    rw [List.getElem?_take, if_pos (by omega)] at hp
    rw [List.getElem?_take, if_pos hi] at hq
    exact h.begins i p q hp hq
  · exact h.sorted.sublist (take_sublist m ps)
  · intro p hp
    refine (h.data p (mem_of_mem_take hp)).of_take fun c hc hle => ?_
    rcases le_bound h he hp with hlt | ⟨heq, hstop⟩
    · exact ⟨c, by rw [hcut.data p hp hlt, hc], hle, rfl⟩
    · have hpos : 0 < m := by
        rcases Nat.eq_zero_or_pos m with rfl | hpos
        · simp at hp
        · exact hpos
      obtain ⟨c', hc', hlen', htake⟩ := hcut.head
      refine ⟨c', by rw [heq, hc'], by omega, ?_⟩
      rw [htake c (heq ▸ hc) hpos, take_take, Nat.min_eq_left hstop]
  · intro p hp
    rw [hcut.headId, hcut.headBytes]
    exact le_bound h he hp
  · obtain ⟨c', hc', hlen', -⟩ := hcut.head
    exact ⟨c', by rw [hcut.headId, hc'], by rw [hcut.headBytes, hlen']⟩
  · intro e' he'
    rw [hlen, hget m (le_refl m), he] at he'
    obtain rfl := some.inj he'
    simp [Begins, hcut.headId, hcut.headBytes]
  · rw [hcut.headId]
    exact hcut.head_opened
  · rw [hcut.headId]
    exact hcut.files_le
  · rw [hcut.headId, hcut.config.tailId]
    exact hcut.present
  · rw [hcut.headId, hcut.headBytes]
    exact hfits

theorem Cut.slack {t' : Table} (hcut : Cut t ps m e t') : t'.slack = [] := by
  obtain ⟨c, hc, hlen, -⟩ := hcut.head
  rw [Table.slack, Table.head, hcut.headId, hc, getD_some, hcut.headBytes, ← hlen, drop_length]

theorem truncate_eq (hm : m < t.items) {index : Bytes}
    (hindex : resize t.index ((m + 1) * indexEntrySize) = index) (he : readEntry index m = some e) :
    t.truncate m =
      if e.filenum = t.headId then
        { t with
          index := index
          data := update t.data t.headId (some (resize t.head e.offset))
          items := m
          headBytes := e.offset }
      else
        { t with
          index := index
          files := (e.filenum :: t.files.filter (· ≠ e.filenum)).filter (· ≤ e.filenum)
          data := update (fun k => if e.filenum < k ∧ k ∈ t.files then none else t.data k)
            e.filenum (some (resize ((t.data e.filenum).getD []) e.offset))
          items := m
          headBytes := e.offset
          headId := e.filenum } := by
  rw [truncate, if_neg (by omega)]
  simp only [hindex, he, getD_some]
  by_cases hid : e.filenum = t.headId
  · simp [hid, truncateHead, head]
  · have hnot : e.filenum ∉ t.files.filter (· ≠ e.filenum) := by simp
    simp only [hid, ne_eq, not_false_eq_true, if_true, if_false, releaseFile, openForAppend, hnot,
      releaseFilesAfter, truncateHead, head]
    congr 1
    funext k
    by_cases hk : k = e.filenum
    · simp [hk]
    · simp [hk]

theorem truncate_cut (h : t.Layout ps) (hoffset : t.itemOffset = 0) (hm : m < ps.length)
    (he : (t.entries ps)[m]? = some e) : Cut t ps m e (t.truncate m) := by
  have hindex : resize t.index ((m + 1) * indexEntrySize) =
      ((t.entries ps).take (m + 1)).flatMap marshallBinary := by
    rw [resize_of_le, h.index, take_records length_marshallBinary]
    rw [h.length_index]
    exact Nat.mul_le_mul_right _ (by omega)
  have heq := truncate_eq (by rw [h.items]; omega) hindex (readEntry_take h.fits he)
  have hid := filenum_le_headId h hoffset he
  -- The file of the last bound is there, unless nothing is left.
  have hfile : ∀ c, t.data e.filenum = some c → 0 < m →
      resize ((t.data e.filenum).getD []) e.offset = c.take e.offset := by
    intro c hc hpos
    rcases bound_cases he with ⟨rfl, -⟩ | ⟨q, hq, rfl⟩
    · exact absurd hpos (lt_irrefl 0)
    · obtain ⟨c', hc', hle, -⟩ := h.data q hq
      obtain rfl : c = c' := some.inj (hc.symm.trans hc')
      rw [hc, getD_some]
      exact resize_of_le hle
  have hpresent : ∀ k, t.tailId ≤ k → k < e.filenum → (t.data k).isSome = true := fun k hk hlt =>
    h.present k hk (by omega)
  rw [heq]
  split
  case isTrue hhead =>
    have hle : ∀ p ∈ ps.take m, p.file ∈ t.files := fun p hp => h.opened p (mem_of_mem_take hp)
    refine ⟨⟨rfl, rfl, rfl, rfl⟩, rfl, by simp [hoffset], hhead.symm, rfl, ?_, fun p _ hk => ?_,
      hhead ▸ h.head_opened, hle, hhead ▸ h.files_le, fun k hk hle => ?_⟩
    · refine ⟨resize t.head e.offset, by simp [hhead], length_resize _ _, fun c hc hpos => ?_⟩
      rw [← hfile c hc hpos, head, hhead]
    · exact update_of_ne (by omega) _ _
    · exact isSome_update fun hne => hpresent k hk (by omega)
  case isFalse hhead =>
    have hlt : ∀ k, k < e.filenum →
        update (fun k => if e.filenum < k ∧ k ∈ t.files then none else t.data k) e.filenum
          (some (resize ((t.data e.filenum).getD []) e.offset)) k = t.data k := by
      intro k hk
      rw [update_of_ne (by omega), if_neg (by omega)]
    refine ⟨⟨rfl, rfl, rfl, rfl⟩, rfl, by simp [hoffset], rfl, rfl, ?_, fun p _ => hlt p.file,
      by simp, fun p hp => ?_, fun k hk => by simpa using (mem_filter.mp hk).2,
      fun k hk hle => ?_⟩
    · exact ⟨_, by simp, length_resize _ _, hfile⟩
    · have hp' := h.opened p (mem_of_mem_take hp)
      by_cases hpe : p.file = e.filenum
      · simp [hpe]
      · have := (le_bound h he hp).resolve_right fun hor => hpe hor.1
        simp [hpe, hp', this.le]
    · rcases Nat.lt_or_eq_of_le hle with hk' | rfl
      · exact (congrArg isSome (hlt k hk')).trans (hpresent k hk hk')
      · simp

theorem truncate_layout (h : t.Layout ps) (hoffset : t.itemOffset = 0) (m : Nat) :
    (t.truncate m).Layout (ps.take m) ∧ SameConfig t (t.truncate m) ∧
      (t.slack = [] → (t.truncate m).slack = []) ∧ (t.truncate m).headId ≤ t.headId := by
  by_cases hm : m < ps.length
  · obtain ⟨e, he⟩ := exists_entry (t := t) hm.le
    have hcut := truncate_cut h hoffset hm he
    refine ⟨hcut.layout h he, hcut.config, fun _ => hcut.slack, ?_⟩
    rw [hcut.headId]
    exact filenum_le_headId h hoffset he
  · have heq : t.truncate m = t := by
      rw [truncate, if_pos]
      rw [h.items, hoffset]
      omega
    rw [heq, take_of_length_le (by omega)]
    exact ⟨h, ⟨rfl, rfl, rfl, rfl⟩, id, le_refl _⟩

/-! ## Contents -/

/-- The items behind the removed ones are the blobs. -/
def Keeps (snappy : Snappy) (t : Table) (blobs : List Bytes) : Prop :=
  ∃ ps, t.Layout ps ∧ t.FirstBegins ps ∧ ps.map Placed.bytes = blobs.map (t.stored snappy)

/-- And there is nothing behind them. -/
def Holds (snappy : Snappy) (t : Table) (blobs : List Bytes) : Prop :=
  t.Keeps snappy blobs ∧ t.slack = []

variable {blobs : List Bytes}

theorem SameConfig.stored {t' : Table} (h : SameConfig t t') :
    t'.stored snappy = t.stored snappy := by
  funext b
  rw [Table.stored, Table.stored, h.noCompression]

theorem Keeps.items (h : t.Keeps snappy blobs) : t.items = t.itemOffset + blobs.length := by
  obtain ⟨ps, hl, -, hps⟩ := h
  rw [hl.items, ← length_map (f := Placed.bytes), hps, length_map]

theorem Keeps.retrieve (hs : snappy.RoundTrips) (h : t.Keeps snappy blobs) {b : Bytes}
    (hb : blobs[i]? = some b) : t.retrieve snappy (t.itemOffset + i) = .ok b := by
  obtain ⟨ps, hl, hfirst, hps⟩ := h
  have hi : (ps.map Placed.bytes)[i]? = some (t.stored snappy b) := by
    rw [hps, List.getElem?_map, hb, map_some]
  rw [List.getElem?_map, map_eq_some_iff] at hi
  obtain ⟨p, hp, hpb⟩ := hi
  rw [retrieve_layout hl (fun _ => hfirst) hp, hpb, restored_stored hs]

theorem Keeps.length_index (h : t.Keeps snappy blobs) :
    t.index.length = (blobs.length + 1) * indexEntrySize := by
  obtain ⟨ps, hl, -, hps⟩ := h
  have hlen : ps.length = blobs.length := by simpa using congrArg length hps
  rw [hl.length_index, hlen]

theorem retrieve_outOfBounds (h : i < t.itemOffset ∨ t.items ≤ i) :
    t.retrieve snappy i = .error .outOfBounds := by
  unfold Table.retrieve
  split
  · rfl
  · rw [if_pos (by omega)]

theorem Keeps.append (h : t.Keeps snappy blobs) (hlen : (t.stored snappy blob).length < 2 ^ 32)
    (hfiles : t.headId + 1 < 2 ^ 16) (hfirst : t.itemOffset = 0 ∨ blobs ≠ []) :
    ∃ t', t.append snappy t.items blob none = (.ok (), t') ∧ SameConfig t t' ∧
      t'.headId ≤ t.headId + 1 ∧
      t'.retrieve snappy t.items = t.restored snappy (t.lands (t.stored snappy blob)) ∧
      (t.slack = [] → Holds snappy t' (blobs ++ [blob])) := by
  obtain ⟨ps, hl, hbegins, hps⟩ := h
  have hroom : Room snappy t ps blob := by
    refine ⟨hlen, hfiles, fun hnil heq => ?_⟩
    rcases hfirst with hzero | hne
    · omega
    · rw [hnil, map_nil, eq_comm, map_eq_nil_iff] at hps
      exact absurd hps hne
  obtain ⟨t', q, happ⟩ := append_layout hl hroom
  refine ⟨t', happ.ok, happ.config, happ.headId, happ.retrieve hl,
    fun hnil => ⟨⟨ps ++ [q], happ.layout, happ.first hbegins, ?_⟩, happ.slack hnil⟩⟩
  rw [happ.config.stored, map_append, map_append, hps, map_singleton, map_singleton, happ.bytes,
    lands_of_slack hnil]

theorem Holds.append (h : Holds snappy t blobs) (hlen : (t.stored snappy blob).length < 2 ^ 32)
    (hfiles : t.headId + 1 < 2 ^ 16) (hfirst : t.itemOffset = 0 ∨ blobs ≠ []) :
    ∃ t', t.append snappy t.items blob none = (.ok (), t') ∧ Holds snappy t' (blobs ++ [blob]) ∧
      SameConfig t t' ∧ t'.headId ≤ t.headId + 1 := by
  obtain ⟨t', heq, hconf, hid, -, hholds⟩ := h.1.append hlen hfiles hfirst
  exact ⟨t', heq, hholds h.2, hconf, hid⟩

theorem Holds.truncate (h : Holds snappy t blobs) (hoffset : t.itemOffset = 0) (m : Nat) :
    Holds snappy (t.truncate m) (blobs.take m) ∧ SameConfig t (t.truncate m) ∧
      (t.truncate m).headId ≤ t.headId := by
  obtain ⟨⟨ps, hl, hfirst, hps⟩, hslack⟩ := h
  obtain ⟨hl', hconf, hslack', hid⟩ := truncate_layout hl hoffset m
  refine ⟨⟨⟨ps.take m, hl', (hfirst.take m).config hconf, ?_⟩, hslack' hslack⟩, hconf, hid⟩
  rw [hconf.stored, List.map_take, List.map_take, hps]

end Table

end GethComments.Freezer
