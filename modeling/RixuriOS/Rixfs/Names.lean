import RixuriOS.Rixfs.OwnedRename

/-!
# Directories as maps

The entries of a directory whose names are unique are a finite map from names to
inodes: repeated calls of `rixfs_readdir` list it, and `rixfs_lookup_name` reads it.
The operations that make and remove entries change this map at one name.
-/

namespace RixuriOS.Rixfs

open ByteCodec CrashStore ExtentList LinkGraph KeyedLists List Option

/-! ## Looking up and listing -/

variable {n : Nat} {name : CString}

/-- The entries that repeated calls of `rixfs_readdir` deliver, from an offset on. -/
inductive Enumerates (f : Fs) (d : Nat) : Nat → List Entry → Prop where
  | done {off : Nat} (hread : readdir f d off (nameMax + 1) = .ok none) : Enumerates f d off []
  | next {off : Nat} {item : DirItem} {l : List Entry}
      (hread : readdir f d off (nameMax + 1) = .ok (some item))
      (hrest : Enumerates f d item.next l) :
      Enumerates f d off (⟨item.ent.inode, item.ent.type, item.name⟩ :: l)

def enumerate (f : Fs) (d : Nat) : Nat → Nat → Option (List Entry)
  | 0, _ => none
  | n + 1, off =>
    match readdir f d off (nameMax + 1) with
    | .error _ => none
    | .ok none => some []
    | .ok (some item) =>
      (enumerate f d n item.next).map (⟨item.ent.inode, item.ent.type, item.name⟩ :: ·)

variable {f g : Fs} {d newDir off oldDir : Nat} {newName oldName : CString}

theorem enumerate_eq_some {l : List Entry} (h : enumerate f d n off = some l) :
    Enumerates f d off l := by
  induction n generalizing off l with
  | zero => cases h
  | succ n ih =>
    rw [enumerate] at h
    cases hread : readdir f d off (nameMax + 1) with
    | error c => simp [hread] at h
    | ok r =>
    cases r with
    | none =>
      rw [hread, some.injEq] at h
      exact h ▸ .done hread
    | some item =>
      rw [hread] at h
      obtain ⟨l', hl', rfl⟩ := map_eq_some_iff.1 h
      exact .next hread (ih hl')

theorem named_eq_any (name : List Byte) (it : Item) :
    it.named name = it.record.toEntry.any fun e => e.name = name := by
  by_cases h0 : it.record.ent.inode = 0
  · simp [Item.named, Rec.toEntry, h0]
  · simp [Item.named, Rec.toEntry, h0]

section

variable (h : Ready f) (hd : IsDirectory f.geo f.view d)

include h hd

theorem IsDirectory.lookupName_find (hname : nameValid name = some n) :
    lookupName f d name =
      match find Entry.name (f.view.listing f.geo.ss d) name.bytes with
      | some e => .ok (e.ino, e.type)
      | none => .error (-8) := by
  rw [hd.lookupName_eq h hname, find, View.listing, if_pos hd.fmt, View.entries_eq,
    List.find?_filterMap]
  have hfun : (fun it : Item => it.record.toEntry.any fun e => decide (e.name = name.bytes)) =
      Item.named name.bytes := funext fun it => (named_eq_any name.bytes it).symm
  rw [hfun]
  cases hfind : (f.view.items f.geo.ss (f.view.ino d)).find? (Item.named name.bytes) with
  | none => rfl
  | some it =>
  have hnamed := find?_some hfind
  rw [Item.named, decide_eq_true_eq] at hnamed
  simp [Rec.toEntry, hnamed.1]

theorem IsDirectory.enumerates_reads {l : List Item} (hn : l.length ≤ n)
    (hr : Reads f d (f.view.ino d).size off l) :
    Enumerates f d off (l.filterMap fun it => it.record.toEntry) := by
  induction n generalizing off l with
  | zero =>
    obtain rfl : l = [] := length_eq_zero_iff.1 (by omega)
    exact .done (hd.readdir_eq h hr)
  | succ n ih =>
    have hread := hd.readdir_eq h hr
    cases hfind : l.find? Item.inUse with
    | none =>
      have hnil : l.filterMap (fun it => it.record.toEntry) = [] := by
        rw [filterMap_eq_nil_iff]
        intro it hit
        have hnot := find?_eq_none.1 hfind it hit
        rw [Item.inUse, decide_eq_true_eq, ne_eq, not_not] at hnot
        exact if_pos hnot
      rw [hnil]
      rw [hfind] at hread
      exact .done hread
    | some it =>
      rw [hfind] at hread
      obtain ⟨hin, l₁, l₂, rfl, hl₁⟩ := find?_eq_some_iff_append.1 hfind
      rw [Item.inUse, decide_eq_true_eq] at hin
      have hnil : l₁.filterMap (fun it => it.record.toEntry) = [] := by
        rw [filterMap_eq_nil_iff]
        intro x hx
        have hnot := hl₁ x hx
        rw [Item.inUse, Bool.not_eq_true', decide_eq_false_iff_not, ne_eq, not_not]
          at hnot
        exact if_pos hnot
      have hrest := ih (by simp at hn; omega) hr.tail
      rw [filterMap_append, hnil, nil_append, filterMap_cons]
      rw [Rec.toEntry, if_neg hin]
      exact .next hread hrest

theorem IsDirectory.enumerates : Enumerates f d 0 (f.view.listing f.geo.ss d) := by
  rw [View.listing, if_pos hd.fmt, View.entries_eq]
  exact hd.enumerates_reads h le_rfl (hd.reads h)

end

/-! ## Unique names -/

def Lookable (name : List Byte) : Prop := ∃ c : CString, ∃ n, nameValid c = some n ∧ c.bytes = name

/-- No directory has two entries with one name, and every name can be looked up. -/
structure Named (g : Geo) (v : View) : Prop where
  unique : Unique Entry.name (v.listing g.ss)
  lookable : ∀ d, ∀ e ∈ v.listing g.ss d, Lookable e.name

theorem CString.ext_bytes {c c' : CString} (h : c.bytes = c'.bytes) : c = c' := by
  cases c
  cases c'
  cases h
  rfl

section

variable (h : Ready f) (hc : Core f.geo f.view)

include h hc

theorem Core.enumerates (hd : f.IsDir d) : Enumerates f d 0 (f.view.listing f.geo.ss d) :=
  (hc.isDirectory hd).enumerates h

theorem Named.lookupName_iff (hn : Named f.geo f.view) (hd : f.IsDir d) (name : CString)
    (k t : Nat) : lookupName f d name = .ok (k, t) ↔
      (⟨k, t, name.bytes⟩ : Entry) ∈ f.view.listing f.geo.ss d := by
  have hdir := hc.isDirectory hd
  cases hname : nameValid name with
  | none =>
    refine iff_of_false ?_ fun hmem => ?_
    · rw [lookupName, h.mounted, hname]
      simp
    obtain ⟨c, n, hvalid, hbytes⟩ := hn.lookable d _ hmem
    rw [CString.ext_bytes hbytes, hname] at hvalid
    cases hvalid
  | some n =>
    rw [hdir.lookupName_find h hname]
    cases hfind : find Entry.name (f.view.listing f.geo.ss d) name.bytes with
    | none =>
      refine iff_of_false (by simp) fun hmem => ?_
      exact find_eq_none_iff.1 hfind (mem_map_of_mem (f := Entry.name) hmem)
    | some e =>
    obtain ⟨hmem, hbytes⟩ := (find_eq_some_iff (hn.unique d)).1 hfind
    rw [Except.ok.injEq, Prod.mk.injEq]
    constructor
    · rintro ⟨rfl, rfl⟩
      rw [← hbytes]
      exact hmem
    intro hmem'
    have hsome := (find_eq_some_iff (a := name.bytes) (hn.unique d)).2 ⟨hmem', rfl⟩
    rw [hfind, some.injEq] at hsome
    rw [hsome]
    exact ⟨rfl, rfl⟩

theorem Core.free_of_lookup (hname : validName name = some n) {c : Int} (hd : f.IsDir d)
    (hlook : lookupName f d name = .error c) :
    find Entry.name (f.view.listing f.geo.ss d) name.bytes = none := by
  rw [(hc.isDirectory hd).lookupName_find h (nameValid_of_validName hname)] at hlook
  cases hfind : find Entry.name (f.view.listing f.geo.ss d) name.bytes with
  | none => rfl
  | some e => simp [hfind] at hlook

end

section

variable {g : Geo} {v v' : View} {e : Entry}

theorem Bound.named (h : Bound g v d e v') (hn : Named g v)
    (hfree : find Entry.name (v.listing g.ss d) e.name = none) (hname : Lookable e.name) :
    Named g v' := by
  refine ⟨h.binds.unique hn.unique hfree, fun j a ha => ?_⟩
  rcases h.binds.mem_cases ha with rfl | ha
  · exact hname
  · exact hn.lookable j a ha

theorem Bound.named_before (h : Bound g v d e v') (hn : Named g v') : Named g v :=
  ⟨h.binds.unique_before hn.unique, fun j a ha => hn.lookable j a (h.binds.mem_after ha)⟩

theorem SameEntries.named (h : SameEntries g v v') (hn : Named g v) : Named g v' := by
  have hsame : v'.listing g.ss = v.listing g.ss := funext h.listing
  exact ⟨hsame.symm ▸ hn.unique, fun d e he => hn.lookable d e (h.listing d ▸ he)⟩

end

/-! ## Renaming -/

theorem Ready.dir_of_lookup (h : Ready f) {r : Nat × Nat} (hlook : lookupName f d name = .ok r) :
    f.IsDir d := by
  rw [lookupName, h.mounted, if_neg (by simp)] at hlook
  cases hname : nameValid name with
  | none => simp [hname] at hlook
  | some n =>
  cases hdir : readDirInode f d with
  | none => simp [hname, hdir] at hlook
  | some i =>
  rw [readDirInode] at hdir
  cases hread : readInode f d with
  | error c => simp [hread] at hdir
  | ok j =>
  obtain ⟨-, rfl⟩ := h.readInode_done hread
  simp only [hread] at hdir
  split_ifs at hdir with hbad
  rw [not_or, not_not, not_not] at hbad
  exact hbad.2

/-- The outcome of a rename: the entry of the old name has moved to the new one, and `rep`
is the entry that was there before. -/
structure Outcome (f : Fs) (oldDir : Nat) (oldName : CString) (newDir : Nat) (newName : CString)
    (k t : Nat) (rep : Option Entry) (g : Fs) : Prop where
  good : Good g
  geo : g.geo = f.geo
  lists : Moves Entry.name (f.view.listing f.geo.ss) oldDir ⟨k, t, oldName.bytes⟩ newDir
    ⟨k, t, newName.bytes⟩ rep (g.view.listing f.geo.ss)
  lookable : Lookable newName.bytes

theorem lookable_of_validName (h : validName name = some n) :
    Lookable name.bytes := ⟨name, n, nameValid_of_validName h, rfl⟩

theorem Good.rename_outcome (h : Good f) {replace : Bool}
    (hrun : rename f oldDir oldName newDir newName replace = (0, g))
    (hne : ¬(oldDir = newDir ∧ oldName.bytes = newName.bytes)) :
    ∃ k t rep, Outcome f oldDir oldName newDir newName k t rep g := by
  obtain ⟨m, n, a, p, hold, hnew, hcheck, hstage, hcode, heff⟩ := rename_ok hrun hne
  have hsound : Sound f := ⟨h.ready, h.tree.safe.owned⟩
  have hchecks := renameCheck_cases hcheck
  have hlook := hchecks.source
  have hfree : a.replaced = none → lookupName f newDir newName = .error (-8) := fun hnone => by
    obtain ⟨-, hfree⟩ | ⟨_, _, _, _, _, hsome, -⟩ := renameDest_cases hchecks.dest
    · exact hfree
    · rw [hnone] at hsome
      cases hsome
  have hd₁ := h.ready.dir_of_lookup hlook
  have hd₂ : f.IsDir newDir := (hsound.renameCheck_picked hcheck).dir
  have ha := renameCheck_ok h.ready h.tree.core hd₂ hnew hd₁ hold hcheck
  obtain ⟨v, rep, hst, htree, hrep, hmoved⟩ :=
    ha.stage_moved h hd₂ (validName_length hnew) newName.nonzero hstage
  rcases journalWriteTransaction_eq h.ready hst.targets with ⟨hfit, htx⟩ | ⟨-, htx⟩
  swap
  · simp [htx] at hcode
  obtain ⟨hready, hgeo, hview⟩ := hst.tx h.ready hfit
  rw [htx] at heff
  obtain ⟨hg, hgeo', hview'⟩ := heff.spec hready
  rw [View.after_nil, hview] at hview'
  rw [hgeo] at hgeo'
  rw [← hview'] at htree hmoved
  refine ⟨a.sourceInode, a.sourceType, rep, ⟨hg, hgeo'.symm ▸ htree, hgeo'.symm ▸ h.bytes⟩, hgeo',
    ⟨hmoved, hrep.name, fun hnone => ?_, fun hd hname => hne ⟨hd, hname⟩⟩,
    lookable_of_validName hnew⟩
  have hnone' : a.replaced = none := by
    have hino := hrep.ino
    rw [hnone, map_none] at hino
    exact map_eq_none_iff.1 hino
  exact h.tree.core.free_of_lookup h.ready hnew hd₂ (hfree hnone')

theorem Outcome.named {k t : Nat} {rep : Option Entry}
    (h : Outcome f oldDir oldName newDir newName k t rep g) (hn : Named f.geo f.view) :
    Named g.geo g.view := by
  rw [h.geo]
  refine ⟨h.lists.unique hn.unique, fun j e he => ?_⟩
  rcases h.lists.mem_cases he with rfl | he
  · exact h.lookable
  · exact hn.lookable j e he

end RixuriOS.Rixfs
