import OrcDb.Lib.JsonText
import OrcDb.Lib.Run
import OrcDb.Proof.Decimal
import OrcDb.Proof.Storage.Wal
import OrcDb.Storage.WalDirectory

/-!
# File names do not matter

`Storage/Wal.lean` has segments with numbers, the source has a directory. `Lists` relates the two:
the files whose names have the shape of a segment's are the segments, each under the name
`SegmentPath` gives it, in whatever order they are listed and among whatever other files. A
directory that holds no file of this shape lists the segments of an empty log (`lists_openDir`).

From there every call has the same outcome on both sides (`Lists.call`), a new listing changes
nothing (`Lists.list`), and `Recover` reads the same records (`Lists.recover`). So a run on a
directory is a run on numbered segments (`directory_refines`), as long as `currentSegment_` has not
come to the end of its 64 bits.
-/

set_option autoImplicit false

namespace OrcDb
namespace Proof

open Lib

/-! ## Names -/

theorem isSegmentName_segmentName (seg : Nat) : isSegmentName (segmentName seg) = true := by
  rw [isSegmentName, segmentName, Bool.and_eq_true, List.isPrefixOf_iff_prefix,
    List.isSuffixOf_iff_suffix, List.append_assoc]
  exact ⟨List.prefix_append _ _, _, List.append_assoc ..⟩

theorem decimal_paddedDecimal (seg : Nat) : Decimal (paddedDecimal seg) seg :=
  (decimal_toString seg).pad _

/-- What stands between `wal-` and `.log`. -/
theorem segmentName_numeral (seg : Nat) :
    ((segmentName seg).drop 4).take ((segmentName seg).length - 8) = paddedDecimal seg := by
  have hhead : (toBytes "wal-").length = 4 := rfl
  have htail : (toBytes ".log").length = 4 := rfl
  rw [segmentName, List.append_assoc, ← hhead, List.drop_left]
  apply List.take_left'
  simp only [List.length_append, hhead, htail]
  omega

/-- `std::stoull` reads the number back. -/
theorem segmentNumber_segmentName {seg : Nat} (h : seg < 2 ^ 64) :
    segmentNumber (segmentName seg) = some seg := by
  rw [segmentNumber, segmentName_numeral]
  exact stoull_of_decimal (decimal_paddedDecimal seg) h

theorem segmentName_injective : Function.Injective segmentName := by
  intro a b h
  have hnumeral : paddedDecimal a = paddedDecimal b := by
    rw [← segmentName_numeral a, ← segmentName_numeral b, h]
  rw [← (decimal_paddedDecimal a).value, ← (decimal_paddedDecimal b).value, hnumeral]

/-! ## Looking up a name -/

section Lookup

variable {α β γ : Type} [BEq α] [LawfulBEq α] [BEq β] [LawfulBEq β]

theorem lookup_filter {p : α → Bool} {k : α} (hk : p k = true) (l : List (α × γ)) :
    (l.filter fun x => p x.1).lookup k = l.lookup k := by
  induction l with
  | nil => rfl
  | cons x l ih =>
    cases hx : k == x.1 with
    | true =>
      have hp : p x.1 = true := eq_of_beq hx ▸ hk
      simp [List.lookup, hp, hx]
    | false =>
      by_cases hp : p x.1 = true
      · simp [List.lookup, hp, hx, ih]
      · simp [List.lookup, hp, hx, ih]

theorem lookup_perm {l l' : List (α × γ)} (h : l.Perm l') (hnodup : (l.map Prod.fst).Nodup)
    (k : α) : l.lookup k = l'.lookup k := by
  induction h with
  | nil => rfl
  | cons x _ ih =>
    rw [List.map_cons, List.nodup_cons] at hnodup
    simp only [List.lookup, ih hnodup.2]
  | swap x y l =>
    have hne : y.1 ≠ x.1 := by
      rw [List.map_cons, List.map_cons, List.nodup_cons] at hnodup
      exact fun h => hnodup.1 (h ▸ List.mem_cons_self)
    cases hx : k == x.1 with
    | true =>
      have hy : (k == y.1) = false := by
        rw [eq_of_beq hx]
        exact beq_false_of_ne hne.symm
      simp only [List.lookup, hx, hy]
    | false => simp only [List.lookup, hx]
  | trans h _ ih ih' =>
    exact (ih hnodup).trans (ih' ((h.map Prod.fst).nodup_iff.mp hnodup))

theorem lookup_map_fst {f : α → β} (hf : Function.Injective f) (l : List (α × γ)) (k : α) :
    (l.map fun x => (f x.1, x.2)).lookup (f k) = l.lookup k := by
  induction l with
  | nil => rfl
  | cons x l ih =>
    have hbeq : (f k == f x.1) = (k == x.1) := by
      rw [Bool.eq_iff_iff, beq_iff_eq, beq_iff_eq, hf.eq_iff]
    simp only [List.map_cons, List.lookup, hbeq, ih]

end Lookup

/-! ## A directory and its segments -/

/-- The file of a segment. -/
def named (file : Nat × Bytes) : Bytes × Bytes := (segmentName file.1, file.2)

/-- The directory `d` lists the segments of `w`, and no other file of their shape. -/
structure Lists (d : WalDirectory) (w : WriteAheadLog) : Prop where
  files : (d.files.filter fun file => isSegmentName file.1).Perm (w.files.map named)
  nodup : (w.files.map Prod.fst).Nodup
  bounded : ∀ seg ∈ w.files.map Prod.fst, seg < 2 ^ 64
  maxSegmentBytes : d.maxSegmentBytes = w.maxSegmentBytes
  currentSegment : d.currentSegment = w.currentSegment
  currentOffset : d.currentOffset = w.currentOffset

namespace Lists

variable {d : WalDirectory} {w : WriteAheadLog} {J : Json.Codec}

theorem lookup (h : Lists d w) (seg : Nat) :
    d.files.lookup (segmentName seg) = w.files.lookup seg := by
  have hnodup : ((d.files.filter fun file => isSegmentName file.1).map Prod.fst).Nodup := by
    rw [(h.files.map Prod.fst).nodup_iff, List.map_map]
    have := h.nodup.map segmentName_injective
    rwa [List.map_map] at this
  rw [← lookup_filter (isSegmentName_segmentName seg) d.files, lookup_perm h.files hnodup]
  exact lookup_map_fst segmentName_injective w.files seg

/-- The loop over the directory finds the numbers. -/
theorem segments (h : Lists d w) : ∃ segs,
    WalDirectory.segments d.files = some segs ∧ segs.Perm (w.files.map Prod.fst) := by
  have hnumber : ∀ file ∈ d.files.filter fun file => isSegmentName file.1,
      segmentNumber file.1 = some ((segmentNumber file.1).getD 0) := by
    intro file hfile
    obtain ⟨segment, hsegment, rfl⟩ := List.mem_map.mp (h.files.subset hfile)
    have hbound := h.bounded segment.1 (List.mem_map_of_mem hsegment)
    rw [named, segmentNumber_segmentName hbound]
    rfl
  refine ⟨_, Json.mapM_eq_some_map hnumber, (h.files.map _).trans ?_⟩
  rw [List.map_map]
  apply List.Perm.of_eq
  apply List.map_congr_left
  intro segment hsegment
  have hbound := h.bounded segment.1 (List.mem_map_of_mem hsegment)
  simp only [Function.comp_apply, named, segmentNumber_segmentName hbound, Option.getD_some]

/-- `Recover` reads the same. -/
theorem recover (h : Lists d w) : d.recover J = w.recover J := by
  obtain ⟨segs, hsegs, hperm⟩ := h.segments
  have hsorted : segs.insertionSort (· ≤ ·) = (w.files.map Prod.fst).insertionSort (· ≤ ·) := by
    refine List.Perm.eq_of_pairwise (fun a b _ _ (hab : a ≤ b) => Nat.le_antisymm hab)
      (List.pairwise_insertionSort _ _) (List.pairwise_insertionSort _ _) ?_
    exact (List.perm_insertionSort _ _).trans (hperm.trans (List.perm_insertionSort _ _).symm)
  simp only [WalDirectory.recover, hsegs, Option.bind_eq_bind, Option.bind_some, hsorted,
    h.lookup]
  rfl

/-- Another listing of the same segments. -/
theorem list (h : Lists d w) {files : List (Bytes × Bytes)}
    (hfiles : (files.filter fun file => isSegmentName file.1).Perm
      (d.files.filter fun file => isSegmentName file.1)) : Lists { d with files } w :=
  { h with files := hfiles.trans h.files }

theorem openOrCreateSegment (h : Lists d w) {seg : Nat} (hseg : seg < 2 ^ 64) :
    Lists (d.openOrCreateSegment seg) (w.openOrCreateSegment seg) := by
  unfold WalDirectory.openOrCreateSegment WriteAheadLog.openOrCreateSegment
  rw [h.lookup]
  cases hlookup : w.files.lookup seg with
  | some content => exact { h with currentSegment := rfl, currentOffset := rfl }
  | none =>
    refine { h with
      files := ?_
      nodup := ?_
      bounded := ?_
      currentSegment := rfl
      currentOffset := rfl }
    · have hnew : [(segmentName seg, ([] : Bytes))].filter (fun file => isSegmentName file.1) =
          [named (seg, [])] := by
        simp [isSegmentName_segmentName, named]
      rw [List.filter_append, List.map_append, hnew]
      exact h.files.append_right _
    · have hnew : seg ∉ w.files.map Prod.fst := by
        intro hmem
        obtain ⟨file, hfile, rfl⟩ := List.mem_map.mp hmem
        exact absurd (List.lookup_eq_none_iff.mp hlookup file hfile) (by simp)
      rw [List.map_append]
      exact h.nodup.append (List.nodup_singleton _) (by simpa using hnew)
    · rw [List.map_append, List.forall_mem_append]
      exact ⟨h.bounded, by simpa using hseg⟩

theorem write (h : Lists d w) (bytes : Bytes) : Lists (d.write bytes) (w.write bytes) := by
  have hkeys : ((w.write bytes).files.map Prod.fst) = w.files.map Prod.fst := by
    simp only [WriteAheadLog.write, List.map_map]
    apply List.map_congr_left
    intro file _
    simp only [Function.comp_apply]
    split <;> rfl
  refine { h with
    files := ?_
    nodup := by rw [hkeys]; exact h.nodup
    bounded := by rw [hkeys]; exact h.bounded
    currentOffset := congrArg (· + bytes.length) h.currentOffset }
  let grow (file : Bytes × Bytes) : Bytes × Bytes :=
    if file.1 = segmentName d.currentSegment then (file.1, file.2 ++ bytes) else file
  have hname : ∀ file, (grow file).1 = file.1 := by
    intro file
    simp only [grow]
    split <;> rfl
  have hfilter : (d.write bytes).files.filter (fun file => isSegmentName file.1) =
      (d.files.filter fun file => isSegmentName file.1).map grow := by
    show (d.files.map grow).filter _ = _
    rw [List.filter_map]
    congr 2
    funext file
    simp only [Function.comp_apply, hname]
  have hgrow : (w.files.map named).map grow = (w.write bytes).files.map named := by
    simp only [WriteAheadLog.write, List.map_map]
    apply List.map_congr_left
    intro file _
    simp only [Function.comp_apply, grow, named, segmentName_injective.eq_iff, h.currentSegment]
    split <;> rfl
  rw [hfilter, ← hgrow]
  exact h.files.map grow

theorem openNext (h : Lists d w) (hroom : d.currentSegment + 1 < 2 ^ 64) :
    Lists (d.openOrCreateSegment d.nextSegment) (w.openOrCreateSegment (w.currentSegment + 1)) := by
  rw [WalDirectory.nextSegment, Nat.mod_eq_of_lt hroom, h.currentSegment]
  exact h.openOrCreateSegment (h.currentSegment ▸ hroom)

theorem maybeRotate (h : Lists d w) (hroom : d.currentSegment + 1 < 2 ^ 64) :
    Lists d.maybeRotate w.maybeRotate := by
  unfold WalDirectory.maybeRotate WriteAheadLog.maybeRotate
  rw [h.currentOffset, h.maxSegmentBytes]
  split
  · exact h.openNext hroom
  · exact h

theorem writeOne (h : Lists d w) (hroom : d.currentSegment + 1 < 2 ^ 64) (rec : WalRecord) :
    Option.Rel Lists (d.writeOne J rec) (w.writeOne J rec) := by
  rw [writeOne_eq_ite]
  unfold WalDirectory.writeOne
  split
  · have hwrite := h.write (WalRecord.bytes J rec)
    cases rec with
    | logEntry e => exact .some (hwrite.maybeRotate hroom)
    | hardState hs => exact .some hwrite
    | snapshot index term data => exact .some (hwrite.openNext hroom)
  · exact .none

theorem openDir (h : Lists d w) (maxSegmentBytes : Nat) :
    Option.Rel Lists (WalDirectory.openDir d.files maxSegmentBytes)
      (some (WriteAheadLog.openDir w.files maxSegmentBytes)) := by
  obtain ⟨segs, hsegs, hperm⟩ := h.segments
  have hhighest : segs.foldl max 0 = (w.files.map Prod.fst).foldl max 0 := hperm.foldl_eq 0
  simp only [WalDirectory.openDir, hsegs, Option.bind_eq_bind, Option.bind_some, hhighest]
  refine .some (openOrCreateSegment ?_ ?_)
  · exact
      { h with maxSegmentBytes := rfl, currentSegment := rfl, currentOffset := rfl }
  · have hle : (w.files.map Prod.fst).foldl max 0 ≤ 2 ^ 64 - 1 :=
      foldl_max_le _ (Nat.zero_le _) fun seg hseg => Nat.le_pred_of_lt (h.bounded seg hseg)
    omega

/-- **Every call has the same outcome on the directory as on the segments.** -/
theorem call (h : Lists d w) (hroom : d.currentSegment + 1 < 2 ^ 64) (c : WalCall) :
    Option.Rel Lists (d.step J (.call c)) (w.step J c) := by
  cases c with
  | write rec => exact h.writeOne hroom rec
  | tear rec k => exact .some (h.write _)
  | reopen maxSegmentBytes => exact h.openDir maxSegmentBytes

end Lists

/-! ## Whole runs -/

/-- A listing is not a call. -/
def DirectoryEvent.call? : DirectoryEvent → Option WalCall
  | .call c => some c
  | .list _ => none

def callsOf (tr : List (WalDirectory × DirectoryEvent)) : List WalCall :=
  (tr.map Prod.snd).filterMap DirectoryEvent.call?

/-- The runs that do not come to the end of `currentSegment_`. -/
abbrev DirectoryRun (J : Json.Codec) :
    WalDirectory → List (WalDirectory × DirectoryEvent) → WalDirectory → Prop :=
  Runs (WalDirectory.step J) fun d _ => d.currentSegment + 1 < 2 ^ 64

variable {J : Json.Codec} {d d' : WalDirectory} {w : WriteAheadLog}
  {tr : List (WalDirectory × DirectoryEvent)}

/-- **A run on a directory is a run on numbered segments**, with the same calls. -/
theorem directory_refines (run : DirectoryRun J d tr d') (h : Lists d w) :
    ∃ tr' w', Runs (WriteAheadLog.step J) (fun _ _ => True) w tr' w' ∧
      tr'.map Prod.snd = callsOf tr ∧ Lists d' w' := by
  refine run.history (I := fun tr d' => ∃ tr' w',
    Runs (WriteAheadLog.step J) (fun _ _ => True) w tr' w' ∧
      tr'.map Prod.snd = callsOf tr ∧ Lists d' w') ?_ ⟨[], w, .refl w, rfl, h⟩
  rintro tr d ev d' ⟨tr', w', run', hcalls, h⟩ hroom hstep
  cases ev with
  | call c =>
    have hrel := h.call (J := J) hroom c
    generalize hw : w'.step J c = out at hrel
    rw [hstep] at hrel
    cases hrel with
    | some h' =>
      refine ⟨tr' ++ [(w', c)], _, run'.tail trivial hw, ?_, h'⟩
      rw [List.map_append, hcalls, callsOf, callsOf, List.map_append, List.filterMap_append]
      rfl
  | list files =>
    simp only [WalDirectory.step] at hstep
    split at hstep
    · rename_i hfiles
      obtain rfl := Option.some.inj hstep
      refine ⟨tr', w', run', ?_, h.list hfiles⟩
      rw [hcalls, callsOf, callsOf, List.map_append, List.filterMap_append]
      exact (List.append_nil _).symm
    · exact absurd hstep (by simp)

/-- A directory with no file of a segment's shape is as good as an empty one. -/
theorem lists_openDir {files : List (Bytes × Bytes)}
    (hfiles : ∀ file ∈ files, isSegmentName file.1 = false) (maxSegmentBytes : Nat) :
    ∃ d, WalDirectory.openDir files maxSegmentBytes = some d ∧
      Lists d (WriteAheadLog.openDir [] maxSegmentBytes) := by
  have hnone : files.filter (fun file => isSegmentName file.1) = [] :=
    List.filter_eq_nil_iff.mpr fun file hfile => by simp [hfiles file hfile]
  have hstart : Lists
      { files, maxSegmentBytes, currentSegment := 0, currentOffset := 0 }
      { files := [], maxSegmentBytes, currentSegment := 0, currentOffset := 0 } :=
    ⟨by rw [hnone]; exact .nil, .nil, fun _ h => absurd h (by simp), rfl, rfl, rfl⟩
  have hrel := hstart.openDir maxSegmentBytes
  generalize WalDirectory.openDir files maxSegmentBytes = out at hrel ⊢
  cases hrel with
  | some h => exact ⟨_, rfl, h⟩

/-- The record a call writes. -/
def WalCall.record? : WalCall → Option WalRecord
  | .write rec => some rec
  | .tear _ _ => none
  | .reopen _ => none

def WalCall.whole : WalCall → Bool
  | .tear _ _ => false
  | .write _ => true
  | .reopen _ => true

/-- The records of a run without torn writes. -/
theorem holds_run {tr : List (WriteAheadLog × WalCall)} {w' : WriteAheadLog}
    (run : Runs (WriteAheadLog.step J) (fun _ _ => True) w tr w') (h : Holds J w [])
    (hwhole : ∀ c ∈ tr.map Prod.snd, WalCall.whole c = true) :
    Holds J w' ((tr.map Prod.snd).filterMap WalCall.record?) := by
  refine run.history (I := fun tr w' => (∀ c ∈ tr.map Prod.snd, WalCall.whole c = true) →
    Holds J w' ((tr.map Prod.snd).filterMap WalCall.record?)) ?_ (fun _ => h) hwhole
  intro tr w' c w'' ih _ hstep hwhole
  rw [List.map_append, List.forall_mem_append] at hwhole
  have hheld := ih hwhole.1
  rw [List.map_append, List.filterMap_append]
  cases c with
  | write rec => exact hheld.writeOne hstep
  | tear rec k => exact absurd (hwhole.2 _ List.mem_cons_self) (by simp [WalCall.whole])
  | reopen maxSegmentBytes =>
    cases hstep
    show Holds J _ (_ ++ [])
    rw [List.append_nil]
    exact hheld.reopen maxSegmentBytes

/-- **What is written to a directory is recovered from it.** The directory may hold any files that
    do not look like segments, more of them may come and go, and it may be listed in any order at
    any time. The constructor returns, and after any writes and reopenings `Recover` returns what
    the records say in the order they were written, across however many segments; nothing throws
    but the write of a record that is too large. -/
theorem directory_recovers (J : Json.Codec) (files : List (Bytes × Bytes))
    (hfiles : ∀ file ∈ files, isSegmentName file.1 = false) (maxSegmentBytes : Nat) :
    ∃ d, WalDirectory.openDir files maxSegmentBytes = some d ∧
      ∀ tr d', DirectoryRun J d tr d' → (∀ c ∈ callsOf tr, WalCall.whole c = true) →
        d'.recover J = some (replay ((callsOf tr).filterMap WalCall.record?)) ∧
          (d'.currentSegment + 1 < 2 ^ 64 → ∀ c, d'.step J (.call c) = none →
            ∃ rec, c = .write rec ∧ ¬ Small J rec) := by
  obtain ⟨d, hd, h⟩ := lists_openDir hfiles maxSegmentBytes
  refine ⟨d, hd, ?_⟩
  intro tr d' run hwhole
  obtain ⟨tr', w', run', hcalls, h'⟩ := directory_refines run h
  have hheld := holds_run run' (holds_empty J maxSegmentBytes) (by rw [hcalls]; exact hwhole)
  rw [hcalls] at hheld
  refine ⟨h'.recover.trans hheld.recover, ?_⟩
  intro hroom c hnone
  have hrel := h'.call (J := J) hroom c
  rw [hnone] at hrel
  cases c with
  | write rec =>
    refine ⟨rec, rfl, fun hsmall => ?_⟩
    obtain ⟨w'', hw''⟩ := writeOne_of_small hsmall w'
    rw [show w'.step J (.write rec) = some w'' from hw''] at hrel
    cases hrel
  | tear rec k => cases hrel
  | reopen maxSegmentBytes => cases hrel

/-- Two records fill a segment. A foreign file is there at first, another one when the directory
    is listed again, in another order, and opened once more. -/
def walEvents : List DirectoryEvent :=
  let vote : WalRecord := .hardState { term := 1, votedFor := "B" }
  let entry : WalRecord := .logEntry { term := 1, index := 1, command := "a" }
  [.call (.write vote), .call (.write entry),
    .list [(segmentName 1, []), (toBytes "notes", []),
      (segmentName 0, vote.bytes Json.text ++ entry.bytes Json.text)],
    .call (.reopen 60), .call (.write (.logEntry { term := 1, index := 2, command := "b" }))]

theorem directory_recovers_notes :
    ∃ d tr d', WalDirectory.openDir [(toBytes "lost+found", [])] 60 = some d ∧
      DirectoryRun Json.text d tr d' ∧ tr.map Prod.snd = walEvents ∧
      (d'.recover Json.text).map (fun r => (r.hardState.votedFor, r.entries.map (·.index))) =
        some ("B", [1, 2]) := by
  obtain ⟨d, hd, h⟩ := directory_recovers Json.text [(toBytes "lost+found", [])]
    (by decide +kernel) 60
  have hexec : (WalDirectory.openDir [(toBytes "lost+found", [])] 60).any (fun d =>
      (exec (WalDirectory.step Json.text) (fun d _ => d.currentSegment + 1 < 2 ^ 64) d
        walEvents).isSome) = true := by decide +kernel
  rw [hd, Option.any_some] at hexec
  obtain ⟨d', hd'⟩ := Option.isSome_iff_exists.mp hexec
  have run : DirectoryRun Json.text d _ d' := runs_of_exec hd'
  have hevents := map_snd_traceOf hd'
  have hrecover := (h _ _ run (by rw [callsOf, hevents]; decide)).1
  rw [callsOf, hevents] at hrecover
  exact ⟨d, _, d', hd, run, hevents, by rw [hrecover]; rfl⟩

end Proof
end OrcDb
