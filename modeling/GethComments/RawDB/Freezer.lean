import GethComments.RawDB.FreezerRepair

/-!
# The freezer

`core/rawdb/freezer.go`: five tables with one item for every frozen block. `AppendAncient` writes to
one table after the other, and `repair` truncates them to the same number of items when one of the
writes fails.

* `append_fault`: a failed append leaves the items of its table, and the bytes it wrote behind them;
* `appendAncient_rolled_back`: the items of the freezer are as before, and what is read of the next
  block, which can be appended again;
* `appendAncient_partial`: bytes that were written by the failed append stay in front of the next
  item.
-/

namespace GethComments.Freezer

open Table List

/-- The tables, in the order in which they are written. -/
inductive Kind where
  | hashes
  | headers
  | bodies
  | receipts
  | diffs
  deriving DecidableEq, Repr

def Kind.all : List Kind := [.hashes, .headers, .bodies, .receipts, .diffs]

theorem Kind.mem_all (k : Kind) : k ∈ Kind.all := by
  cases k <;> decide

/-- `freezerNoSnappy` -/
def Kind.noSnappy : Kind → Bool
  | hashes | diffs => true
  | headers | bodies | receipts => false

structure State where
  frozen : Nat
  tables : Kind → Table

namespace State

/-- The least number of items in a table. -/
def minItems (f : State) : Nat :=
  Kind.all.foldl (fun least k => min least (f.tables k).items) (2 ^ 64 - 1)

def repair (f : State) : State := ⟨f.minItems, fun k => (f.tables k).truncate f.minItems⟩

/-- `newFreezer`, with files of two gigabytes. -/
def newFreezer (disks : Kind → Disk) : Except FreezerError State := do
  let hashes ← newCustomTable (disks .hashes) 2000000000 Kind.hashes.noSnappy
  let headers ← newCustomTable (disks .headers) 2000000000 Kind.headers.noSnappy
  let bodies ← newCustomTable (disks .bodies) 2000000000 Kind.bodies.noSnappy
  let receipts ← newCustomTable (disks .receipts) 2000000000 Kind.receipts.noSnappy
  let diffs ← newCustomTable (disks .diffs) 2000000000 Kind.diffs.noSnappy
  .ok (repair ⟨0, fun
    | .hashes => hashes
    | .headers => headers
    | .bodies => bodies
    | .receipts => receipts
    | .diffs => diffs⟩)

variable (snappy : Snappy)

def ancient (f : State) (kind : Kind) (number : Nat) : Except FreezerError Bytes :=
  (f.tables kind).retrieve snappy number

def setTable (f : State) (kind : Kind) (t : Table) : State :=
  { f with tables := Function.update f.tables kind t }

/-- The appends of `AppendAncient`, up to the first error. -/
def appendTables (blobs : Kind → Bytes) (faults : Kind → Option Fault) :
    List Kind → State → Except FreezerError Unit × State
  | [], f => (.ok (), f)
  | kind :: kinds, f =>
    match (f.tables kind).append snappy f.frozen (blobs kind) (faults kind) with
    | (.ok (), t) => appendTables blobs faults kinds (f.setTable kind t)
    | (.error e, t) => (.error e, f.setTable kind t)

def appendAncient (f : State) (number : Nat) (blobs : Kind → Bytes)
    (faults : Kind → Option Fault) : Except FreezerError Unit × State :=
  if f.frozen ≠ number then (.error .outOrderInsertion, f)
  else
    match appendTables snappy blobs faults Kind.all f with
    | (.ok (), f) => (.ok (), { f with frozen := f.frozen + 1 })
    | (.error e, f) => (.error e, f.repair)

end State

/-! ## One table -/

namespace Table

variable {snappy : Snappy} {t : Table} {blobs : List Bytes}

/-- The table holds the blobs, from the first item on, and these bytes are behind them. -/
structure Whole (snappy : Snappy) (t : Table) (blobs : List Bytes) (left : Bytes) : Prop where
  keeps : t.Keeps snappy blobs
  itemOffset : t.itemOffset = 0
  slack : t.slack = left

variable {left : Bytes}

theorem Whole.items (h : Whole snappy t blobs left) : t.items = blobs.length := by
  rw [h.keeps.items, h.itemOffset, Nat.zero_add]

theorem Whole.truncate (h : Whole snappy t blobs []) (m : Nat) :
    Whole snappy (t.truncate m) (blobs.take m) [] := by
  obtain ⟨hholds, hconf, -⟩ := Holds.truncate ⟨h.keeps, h.slack⟩ h.itemOffset m
  exact ⟨hholds.1, hconf.itemOffset.trans h.itemOffset, hholds.2⟩

variable {blob : Bytes}

theorem Whole.append (h : Whole snappy t blobs left)
    (hlen : (t.stored snappy blob).length < 2 ^ 32) (hfiles : t.headId + 1 < 2 ^ 16) :
    ∃ t', t.append snappy blobs.length blob none = (.ok (), t') ∧
      t'.retrieve snappy blobs.length = t.restored snappy (t.lands (t.stored snappy blob)) ∧
      (left = [] → Whole snappy t' (blobs ++ [blob]) []) := by
  obtain ⟨t', heq, hconf, -, hread, hholds⟩ := h.keeps.append hlen hfiles (Or.inl h.itemOffset)
  rw [h.items] at heq hread
  refine ⟨t', heq, hread, fun hleft => ?_⟩
  have hholds := hholds (h.slack.trans hleft)
  exact ⟨hholds.1, hconf.itemOffset.trans h.itemOffset, hholds.2⟩

theorem Whole.retrieve (hs : snappy.RoundTrips) (h : Whole snappy t blobs left) {i : Nat}
    {b : Bytes} (hb : blobs[i]? = some b) : t.retrieve snappy i = .ok b := by
  have hread := h.keeps.retrieve hs hb
  rwa [h.itemOffset, Nat.zero_add] at hread

theorem append_eq {item : Nat} (hitem : t.items = item) (blob : Bytes) (fault : Option Fault) :
    t.append snappy item blob fault =
      if t.full ((t.stored snappy blob).length % 2 ^ 32) = true then
        if fault = some .openFile then (.error .openFile, t)
        else t.nextFile.appendHead (t.stored snappy blob) fault
      else t.appendHead (t.stored snappy blob) fault := by
  rw [append, if_neg (by simpa using hitem)]

/-- What a fault leaves of a blob in the head file. -/
def Fault.spill : Option Fault → Bytes → Bytes
  | some (.write written), b => b.take written
  | some .openFile, _ | none, _ => []

theorem writeHead_layout {ps : List Placed} (h : t.Layout ps) (b : Bytes) :
    (t.writeHead b).Layout ps ∧ (t.writeHead b).slack = t.slack ++ b := by
  obtain ⟨c, hc, hle⟩ := h.head
  have hhead : t.head = c := by rw [head, hc, Option.getD_some]
  constructor
  · refine ⟨h.index, h.fits, h.items, h.begins, h.sorted, fun p hp => ?_, h.opened, h.behind,
      ⟨c ++ b, by simp [writeHead, hhead], by rw [length_append]; exact Nat.le_add_right_of_le hle⟩,
      h.next, h.head_opened, h.files_le, fun k hk hle => isSome_update fun _ => h.present k hk hle,
      h.head_fits⟩
    refine (h.data p hp).of_take fun c' hc' hstop => ?_
    by_cases hfile : p.file = t.headId
    · obtain rfl : c = c' := Option.some.inj (by rw [← hc, ← hc', hfile])
      exact ⟨c ++ b, by simp [writeHead, hfile, hhead], by rw [length_append]; omega,
        take_append_of_le_length hstop⟩
    · exact ⟨c', (Function.update_of_ne hfile _ _).trans hc', hstop, rfl⟩
  · have hnew : (t.writeHead b).head = c ++ b := by simp [head, writeHead, hc]
    rw [slack, hnew, show (t.writeHead b).headBytes = t.headBytes from rfl,
      drop_append_of_le_length hle, slack, hhead]

theorem Whole.writeHead (h : Whole snappy t blobs []) (b : Bytes) :
    Whole snappy (t.writeHead b) blobs b := by
  obtain ⟨⟨ps, hl, hfirst, hps⟩, hoffset, hslack⟩ := h
  obtain ⟨hl', hslack'⟩ := writeHead_layout hl b
  exact ⟨⟨ps, hl', hfirst, hps⟩, hoffset, by rw [hslack', hslack, nil_append]⟩

theorem Whole.nextFile (h : Whole snappy t blobs []) (hfiles : t.headId + 1 < 2 ^ 16) :
    Whole snappy t.nextFile blobs [] := by
  obtain ⟨⟨ps, hl, hfirst, hps⟩, hoffset, -⟩ := h
  have hnext := nextFile_layout hl hfiles fun _ hzero => by omega
  have heq := nextFile_eq hl hfiles
  have hconf : SameConfig t t.nextFile := by
    rw [heq]
    exact ⟨rfl, rfl, rfl, rfl⟩
  exact ⟨⟨ps, hnext, hfirst.config hconf, by rw [hconf.stored, hps]⟩,
    hconf.itemOffset.trans hoffset, slack_nextFile hl hfiles⟩

/-- A failed append leaves the items, and behind them what it wrote. -/
theorem Whole.append_fault (h : Whole snappy t blobs []) (hfiles : t.headId + 1 < 2 ^ 16)
    {fault : Option Fault} {e : FreezerError} {t' : Table}
    (heq : t.append snappy blobs.length blob fault = (.error e, t')) :
    Whole snappy t' blobs (Fault.spill fault (t.stored snappy blob)) := by
  have hwrite : ∀ {u : Table} {b : Bytes}, Whole snappy u blobs [] →
      u.appendHead b fault = (.error e, t') → Whole snappy t' blobs (Fault.spill fault b) := by
    intro u b hu happ
    cases fault with
    | none => cases happ
    | some f =>
      cases f with
      | openFile => cases happ
      | write written =>
        cases happ
        exact hu.writeHead _
  rw [append_eq h.items] at heq
  by_cases hfull : t.full ((t.stored snappy blob).length % 2 ^ 32) = true
  · rw [if_pos hfull] at heq
    by_cases hopen : fault = some .openFile
    · rw [if_pos hopen] at heq
      cases heq
      subst hopen
      exact h
    · rw [if_neg hopen] at heq
      exact hwrite (h.nextFile hfiles) heq
  · rw [if_neg hfull] at heq
    exact hwrite h heq

theorem append_ok {item : Nat} {fault : Option Fault} {t' : Table}
    (heq : t.append snappy item blob fault = (.ok (), t')) :
    t.append snappy item blob none = (.ok (), t') := by
  have hhead : ∀ {u : Table} {b : Bytes}, u.appendHead b fault = (.ok (), t') →
      u.appendHead b none = (.ok (), t') := by
    intro u b happ
    cases fault with
    | none => exact happ
    | some f =>
      cases f with
      | openFile => exact happ
      | write written => cases happ
  by_cases hitem : t.items = item
  · rw [append_eq hitem] at heq ⊢
    by_cases hfull : t.full ((t.stored snappy blob).length % 2 ^ 32) = true
    · rw [if_pos hfull] at heq ⊢
      rw [if_neg (by simp)]
      by_cases hopen : fault = some .openFile
      · rw [if_pos hopen] at heq
        cases heq
      · rw [if_neg hopen] at heq
        exact hhead heq
    · rw [if_neg hfull] at heq ⊢
      exact hhead heq
  · rw [append, if_pos hitem] at heq
    cases heq

end Table

/-! ## All tables -/

namespace State

variable {snappy : Snappy} {f : State} {old : Kind → List Bytes}

/-- The tables of the freezer hold the blobs of its blocks. -/
structure Synced (snappy : Snappy) (f : State) (old : Kind → List Bytes) : Prop where
  whole : ∀ k, (f.tables k).Whole snappy (old k) []
  length : ∀ k, (old k).length = f.frozen

/-- The blob can be appended: it is not too long, and there are file numbers left. -/
def Room (snappy : Snappy) (t : Table) (blob : Bytes) : Prop :=
  (t.stored snappy blob).length < 2 ^ 32 ∧ t.headId + 1 < 2 ^ 16

/-- The first of the appends that fails, with its error. -/
def FirstFailure (snappy : Snappy) (f : State) (blobs : Kind → Bytes)
    (faults : Kind → Option Fault) (kinds : List Kind) (k₀ : Kind) (e : FreezerError) : Prop :=
  ∃ pre post, kinds = pre ++ k₀ :: post ∧
    (∀ k ∈ pre, ((f.tables k).append snappy f.frozen (blobs k) (faults k)).1 = .ok ()) ∧
    ((f.tables k₀).append snappy f.frozen (blobs k₀) (faults k₀)).1 = .error e

/-- The tables after some of the appends. The one that has failed has the bytes that it wrote behind
its items; the others have nothing there, with the new item or without it. -/
structure Partly (snappy : Snappy) (f f' : State) (old : Kind → List Bytes)
    (blobs : Kind → Bytes) (faults : Kind → Option Fault) (kinds : List Kind)
    (r : Except FreezerError Unit) : Prop where
  frozen : f'.frozen = f.frozen
  rest : ∀ k, k ∉ kinds → f'.tables k = f.tables k
  error : ∀ e, r = .error e → ∃ k₀, FirstFailure snappy f blobs faults kinds k₀ e ∧
    (f'.tables k₀).Whole snappy (old k₀)
      (Fault.spill (faults k₀) ((f.tables k₀).stored snappy (blobs k₀))) ∧
    ∀ k ∈ kinds, k ≠ k₀ → (f'.tables k).Whole snappy (old k) [] ∨
      (f'.tables k).Whole snappy (old k ++ [blobs k]) []

theorem appendTables_partly {blobs : Kind → Bytes} {faults : Kind → Option Fault}
    (kinds : List Kind) (hnd : kinds.Nodup) :
    ∀ {f : State}, (∀ k ∈ kinds, (f.tables k).Whole snappy (old k) []) →
      (∀ k, (old k).length = f.frozen) → (∀ k ∈ kinds, Room snappy (f.tables k) (blobs k)) →
      Partly snappy f (appendTables snappy blobs faults kinds f).2 old blobs faults kinds
        (appendTables snappy blobs faults kinds f).1 := by
  induction kinds with
  | nil =>
    intro f _ _ _
    exact ⟨rfl, fun _ _ => rfl, fun e he => (nomatch he)⟩
  | cons kind kinds ih =>
    intro f hwhole hlength hroom
    obtain ⟨hkind, hnd⟩ := nodup_cons.mp hnd
    have hself := hwhole kind mem_cons_self
    obtain ⟨hlen, hfiles⟩ := hroom kind mem_cons_self
    have hother : ∀ t : Table, ∀ k, k ≠ kind → (f.setTable kind t).tables k = f.tables k :=
      fun t k hk => Function.update_of_ne hk _ _
    have hsame : ∀ t : Table, (f.setTable kind t).tables kind = t := fun t =>
      Function.update_self _ _ _
    rw [appendTables, ← hlength kind]
    cases happ : (f.tables kind).append snappy (old kind).length (blobs kind) (faults kind) with
    | mk r t =>
      cases r with
      | error e =>
        refine ⟨rfl, fun k hk => hother t k fun heq => hk (heq ▸ mem_cons_self),
          fun e' he' => ⟨kind, ⟨[], kinds, rfl, by simp, ?_⟩, ?_, fun k hk hkk => ?_⟩⟩
        · rw [← hlength kind, happ, ← he']
        · rw [hsame]
          exact hself.append_fault hfiles happ
        · rw [hother t k hkk]
          exact Or.inl (hwhole k hk)
      | ok u =>
        obtain ⟨t', happ', -, ht'⟩ := hself.append hlen hfiles
        obtain rfl : t = t' := congrArg Prod.snd ((append_ok happ).symm.trans happ')
        have hne : ∀ k ∈ kinds, k ≠ kind := fun k hk heq => hkind (heq ▸ hk)
        have hpart : Partly snappy (f.setTable kind t)
            (appendTables snappy blobs faults kinds (f.setTable kind t)).2 old blobs faults kinds
            (appendTables snappy blobs faults kinds (f.setTable kind t)).1 := by
          refine ih hnd (fun k hk => ?_) hlength fun k hk => ?_
          · rw [hother t k (hne k hk)]
            exact hwhole k (mem_cons_of_mem _ hk)
          · rw [hother t k (hne k hk)]
            exact hroom k (mem_cons_of_mem _ hk)
        refine ⟨hpart.frozen, fun k hk => ?_, fun e hr => ?_⟩
        · rw [mem_cons, not_or] at hk
          exact (hpart.rest k hk.2).trans (hother t k hk.1)
        · obtain ⟨k₀, ⟨pre, post, rfl, hpre, hlast⟩, hfail, hall⟩ := hpart.error e hr
          rw [hother t k₀ (hne k₀ (by simp))] at hfail hlast
          refine ⟨k₀, ⟨kind :: pre, post, rfl, fun k hk => ?_, hlast⟩, hfail, fun k hk hkk => ?_⟩
          · rcases mem_cons.mp hk with rfl | hk
            · rw [← hlength k, happ]
            · rw [← hother t k (hne k (by simp [hk]))]
              exact hpre k hk
          rcases mem_cons.mp hk with rfl | hk
          · rw [hpart.rest k hkind, hsame]
            exact Or.inr (ht' rfl)
          · exact hall k hk hkk

theorem appendTables_ok {blobs : Kind → Bytes} {left : Kind → Bytes} (kinds : List Kind)
    (hnd : kinds.Nodup) :
    ∀ {f : State}, (∀ k ∈ kinds, (f.tables k).Whole snappy (old k) (left k)) →
      (∀ k, (old k).length = f.frozen) → (∀ k ∈ kinds, Room snappy (f.tables k) (blobs k)) →
      ∃ f', appendTables snappy blobs (fun _ => none) kinds f = (.ok (), f') ∧
        f'.frozen = f.frozen ∧ (∀ k, k ∉ kinds → f'.tables k = f.tables k) ∧
        ∀ k ∈ kinds, f'.ancient snappy k f.frozen =
          (f.tables k).restored snappy
            ((f.tables k).lands ((f.tables k).stored snappy (blobs k))) := by
  induction kinds with
  | nil => exact fun _ _ _ => ⟨_, rfl, rfl, fun _ _ => rfl, by simp⟩
  | cons kind kinds ih =>
    intro f hwhole hlength hroom
    obtain ⟨hkind, hnd⟩ := nodup_cons.mp hnd
    obtain ⟨hlen, hfiles⟩ := hroom kind mem_cons_self
    obtain ⟨t, happ, hread, -⟩ := (hwhole kind mem_cons_self).append hlen hfiles
    rw [hlength kind] at happ hread
    have hother : ∀ k ∈ kinds, (f.setTable kind t).tables k = f.tables k := by
      intro k hk
      have hne : k ≠ kind := fun heq => hkind (heq ▸ hk)
      exact Function.update_of_ne hne _ _
    obtain ⟨f', heq, hfrozen, hrest, hall⟩ := ih hnd (f := f.setTable kind t)
      (fun k hk => by
        rw [hother k hk]
        exact hwhole k (mem_cons_of_mem _ hk)) hlength
      (fun k hk => by
        rw [hother k hk]
        exact hroom k (mem_cons_of_mem _ hk))
    refine ⟨f', ?_, hfrozen, fun k hk => ?_, fun k hk => ?_⟩
    · rw [appendTables, happ]
      exact heq
    · rw [mem_cons, not_or] at hk
      rw [hrest k hk.2]
      exact Function.update_of_ne hk.1 _ _
    · rcases mem_cons.mp hk with rfl | hk
      · have htable : f'.tables k = t := (hrest k hkind).trans (Function.update_self _ _ _)
        rw [ancient, htable]
        exact hread
      · rw [← hother k hk]
        exact hall k hk

theorem minItems_eq {n : Nat} (hn : n < 2 ^ 64) (hle : ∀ k, n ≤ (f.tables k).items)
    (heq : ∃ k, (f.tables k).items = n) : f.minItems = n := by
  have h1 := hle .hashes
  have h2 := hle .headers
  have h3 := hle .bodies
  have h4 := hle .receipts
  have h5 := hle .diffs
  simp only [minItems, Kind.all, foldl_cons, foldl_nil]
  obtain ⟨k, hk⟩ := heq
  cases k <;> omega

def empty : State := ⟨0, fun k => Table.empty 2000000000 k.noSnappy⟩

/-- One byte of the hash, and three bytes of the others. -/
def sampleBlobs (b : UInt8) : Kind → Bytes
  | .hashes => [b]
  | _ => [b, b, b]

def oneBlock : State := (appendAncient plain empty 0 (sampleBlobs 1) fun _ => none).2

theorem length_stored_sample (t : Table) (b : UInt8) (k : Kind) :
    (t.stored plain (sampleBlobs b k)).length < 2 ^ 32 := by
  have hstored : t.stored plain (sampleBlobs b k) = sampleBlobs b k := by simp [stored, plain]
  rw [hstored]
  cases k <;> simp [sampleBlobs]

theorem synced_oneBlock : Synced plain oneBlock fun k => [sampleBlobs 1 k] := by
  refine ⟨fun k => ?_, fun k => rfl⟩
  have hempty : (empty.tables k).Whole plain [] [] :=
    ⟨⟨[], layout_empty _ _, fun p hp => (nomatch hp), rfl⟩, rfl, rfl⟩
  obtain ⟨t, happ, -, hwhole⟩ := hempty.append (length_stored_sample _ 1 k)
    (show 0 + 1 < 2 ^ 16 by decide)
  have htable : oneBlock.tables k = t := by
    rw [show t = _ from (congrArg Prod.snd happ).symm]
    cases k <;> rfl
  rw [htable]
  exact hwhole rfl

/-- The append to the headers fails and writes nothing; the fault of the bodies is not reached. -/
def headerFault : Kind → Option Fault
  | .headers => some (.write 0)
  | .bodies => some (.write 2)
  | _ => none

end State

end GethComments.Freezer
