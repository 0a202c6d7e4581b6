import OrcDb.Proof.Raft.OneNode
import OrcDb.Proof.Storage.Truncate

/-!
# Votes and power failures

One node on its disk, over any number of lives. `AppendLogEntry` and `WriteSnapshot` call
`fdatasync` before they return and `WriteHardState` does not, so `synced` — how much of the
current segment is on the platter — lags behind the file. A crash comes between two sections
or inside one, and leaves the current segment cut anywhere from `synced` on. Closed segments
were synced when they were closed. A call that throws — a record that one `write` does not
take whole — is not followed further.

Every vote is on file before it is announced, so a crash breaks the promise exactly if it
cuts the record of an announced vote away. `votes_durable` says so: as long as crashes spare
those records (and cut between two records, since what is written behind a torn record is not
read again), a node keeps every vote it announced through all its lives, and never announces
two candidates in a term. The other way to break it needs no crash: a request with the largest
term, and an election after it, which starts over at term 0 (`Section.TermFits`).
-/

set_option autoImplicit false

namespace OrcDb
namespace Proof

open Lib

/-! ## The machine -/

structure Machine where
  /-- `none` while the process is down. -/
  node : Option RaftNode
  disk : WriteAheadLog
  /-- How many bytes of the current segment were there at its last `fdatasync`. -/
  synced : Nat
  /-- The records on disk, and where they stand. -/
  places : List Place
  /-- The votes the world was told about, as a term and a candidate. -/
  announced : List (Nat × String)

/-- Nothing has run yet, and the directory is empty. -/
def Machine.fresh (maxSegmentBytes : Nat) : Machine where
  node := none
  disk := .openDir [] maxSegmentBytes
  synced := 0
  places := []
  announced := []

/-- What the process does between two points where it can be seen: a section, or the
    constructor. -/
inductive Task where
  | construct
  | enter (sec : Section)

/-- The node after a task, the records the task writes, and the votes it announces. -/
def Task.outcome (J : Json.Codec) (cfg : RaftConfig) (m : Machine) :
    Task → Option (RaftNode × List WalRecord × List (Nat × String))
  | .construct =>
      match m.node with
      | some _ => none
      | none => do
          let r ← m.disk.recover J
          let n ← RaftNode.construct J r
          return (n, n.wal, [])
  | .enter sec => do
      let n ← m.node
      let n' ← sec.run64 J cfg n
      return (n', n'.wal.drop n.wal.length, sec.announces64 cfg n)

namespace Machine

/-- One call on the WAL, with its `fdatasync`, if it has one, and its rotation. -/
def call (J : Json.Codec) (m : Machine) (rec : WalRecord) : Option Machine := do
  let disk ← m.disk.writeOne J rec
  let synced :=
    match rec with
    | .hardState _ => m.synced
    | _ => disk.currentOffset
  return { m with disk, synced, places := m.places ++ [nextPlace J m.disk rec] }

def calls (J : Json.Codec) (m : Machine) (rs : List WalRecord) : Option Machine :=
  rs.foldlM (call J) m

/-- A call that has written its record and got no further. -/
def writeOnly (J : Json.Codec) (m : Machine) (rec : WalRecord) : Option Machine := do
  let _ ← m.disk.writeOne J rec
  return { m with disk := m.disk.write (WalRecord.bytes J rec)
                  places := m.places ++ [nextPlace J m.disk rec] }

/-- The process in the middle of a task: `k` of its calls on the WAL have returned, and the
    next one, if there is one, has written its record. -/
def during (J : Json.Codec) (cfg : RaftConfig) (m : Machine) (task : Task) (k : Nat) :
    Option Machine := do
  let (_, rs, _) ← task.outcome J cfg m
  let m ← m.calls J (rs.take k)
  match rs[k]? with
  | some rec => m.writeOnly J rec
  | none => return m

/-- The power fails: the current segment loses what was written after byte `cut`. -/
def crash (m : Machine) (cut : Nat) : Option Machine :=
  if m.synced ≤ cut ∧ cut ≤ m.disk.currentOffset then
    some { m with
      node := none
      disk := .openDir (cutLast m.disk.files cut) m.disk.maxSegmentBytes
      places := m.places.filter fun p => p.segment < m.disk.currentSegment ∨ p.stop ≤ cut }
  else none

end Machine

inductive Life where
  | run (task : Task)
  | crash (cut : Nat)
  | crashDuring (task : Task) (k cut : Nat)

def Life.step (J : Json.Codec) (cfg : RaftConfig) (m : Machine) : Life → Option Machine
  | .run task => do
      let (n, rs, votes) ← task.outcome J cfg m
      let m' ← m.calls J rs
      return { m' with node := some n, announced := m.announced ++ votes }
  | .crash cut => m.crash cut
  | .crashDuring task k cut => do
      let m' ← m.during J cfg task k
      m'.crash cut

/-! ## The promise, and the condition -/

/-- The vote `v` binds a node with this term and vote. -/
def Binds (hs : HardState) (v : Nat × String) : Prop :=
  v.1 < hs.term ∨ hs.term = v.1 ∧ hs.votedFor = v.2

/-- Every announced vote is kept: by the running node, or by what a constructor would read. -/
def Machine.KeepsVotes (J : Json.Codec) (m : Machine) : Prop :=
  match m.node with
  | some n => ∀ v ∈ m.announced, Binds (hardOf n) v
  | none => ∃ r, m.disk.recover J = some r ∧ ∀ v ∈ m.announced, Binds r.hardState v

/-- The record of every announced vote lies before the cut. -/
def Machine.SparesVotes (m : Machine) (cut : Nat) : Prop :=
  ∀ v ∈ m.announced, ∃ p ∈ m.places,
    p.record = .hardState { term := v.1, votedFor := v.2 } ∧
      (p.segment < m.disk.currentSegment ∨ p.stop ≤ cut)

/-- The cut falls between two records. -/
def Machine.Whole (m : Machine) (cut : Nat) : Prop :=
  cut = 0 ∨ ∃ p ∈ m.places, p.segment = m.disk.currentSegment ∧ p.stop = cut

instance (m : Machine) (cut : Nat) : Decidable (m.SparesVotes cut) :=
  inferInstanceAs (Decidable (∀ _ ∈ _, _))

instance (m : Machine) (cut : Nat) : Decidable (m.Whole cut) :=
  inferInstanceAs (Decidable (_ ∨ _))

/-- Who asks for a vote in the task. -/
def Task.asker : Task → Option String
  | .enter (.requestVote req) => some req.candidateId
  | _ => none

/-- The task does not count the term beyond 64 bits. -/
def Task.TermFits (m : Machine) : Task → Prop
  | .construct => True
  | .enter sec => ∀ n ∈ m.node, sec.TermFits n

instance (m : Machine) (task : Task) : Decidable (task.TermFits m) :=
  match task with
  | .construct => .isTrue trivial
  | .enter sec => inferInstanceAs (Decidable (∀ n ∈ m.node, sec.TermFits n))

/-- A step that does no harm. `""` is how the code writes "no vote", so nobody may be called
    that. -/
def Life.Spares (J : Json.Codec) (cfg : RaftConfig) (m : Machine) : Life → Prop
  | .run task => task.asker ≠ some "" ∧ task.TermFits m
  | .crash cut => m.SparesVotes cut ∧ m.Whole cut
  | .crashDuring task k cut =>
      task.TermFits m ∧ ∀ m' ∈ m.during J cfg task k, m'.SparesVotes cut ∧ m'.Whole cut

instance (J : Json.Codec) (cfg : RaftConfig) (m : Machine) (ev : Life) :
    Decidable (ev.Spares J cfg m) :=
  match ev with
  | .run _ => inferInstanceAs (Decidable (_ ∧ _))
  | .crash _ => inferInstanceAs (Decidable (_ ∧ _))
  | .crashDuring _ _ _ => inferInstanceAs (Decidable (_ ∧ ∀ _ ∈ _, _))

/-! ## Hard states along the records -/

variable {J : Json.Codec} {cfg : RaftConfig} {m m' : Machine} {rs rs' : List WalRecord}
  {hs : HardState} {v : Nat × String}

theorem Binds.hardAfter (h : Binds hs v) (hv : v.2 ≠ "") (hd : Disciplined hs rs) :
    Binds (hardAfter hs rs) v := by
  induction rs generalizing hs with
  | nil => exact h
  | cons r rs ih =>
    obtain ⟨hr, hrest⟩ := hd
    refine ih ?_ hrest
    cases r with
    | hardState h' =>
      simp only [RecordOk, VoteRule] at hr
      simp only [hardStep]
      rcases h with h | ⟨hterm, hvote⟩
      · exact Or.inl (by omega)
      · rcases hr with hlt | ⟨heq, hfree | hsame⟩
        · exact Or.inl (by omega)
        · exact absurd (hvote.symm.trans hfree) hv
        · exact Or.inr ⟨by omega, hsame.trans hvote⟩
    | logEntry e => exact h
    | snapshot i t d => exact h

/-- A vote on file is kept. -/
theorem keeps_of_mem (hd : Disciplined {} rs) (hv : v.2 ≠ "")
    (hm : .hardState { term := v.1, votedFor := v.2 } ∈ rs) : Binds (hardAfter {} rs) v := by
  obtain ⟨pre, post, rfl⟩ := List.append_of_mem hm
  rw [disciplined_append] at hd
  rw [hardAfter_append]
  have hcast : Binds { term := v.1, votedFor := v.2 } v := Or.inr ⟨rfl, rfl⟩
  exact hcast.hardAfter hv hd.2.2

/-- The hard state in force is the initial one or on file. -/
theorem hardAfter_mem (hs : HardState) (rs : List WalRecord) :
    hardAfter hs rs = hs ∨ .hardState (hardAfter hs rs) ∈ rs := by
  induction rs generalizing hs with
  | nil => exact Or.inl rfl
  | cons r rs ih =>
    rcases ih (hardStep hs r) with h | h
    · change hardAfter (hardStep hs r) rs = hs ∨
        WalRecord.hardState (hardAfter (hardStep hs r) rs) ∈ r :: rs
      rw [h]
      cases r with
      | hardState h' => exact Or.inr List.mem_cons_self
      | logEntry e => exact Or.inl rfl
      | snapshot i t d => exact Or.inl rfl
    · exact Or.inr (List.mem_cons_of_mem r h)

/-- A vote that is kept was on file, if it ever was. -/
theorem mem_of_keeps (hd : Disciplined {} (rs ++ rs')) (hv : v.2 ≠ "")
    (hm : .hardState { term := v.1, votedFor := v.2 } ∈ rs ++ rs')
    (h : Binds (hardAfter {} rs) v) : .hardState { term := v.1, votedFor := v.2 } ∈ rs := by
  rcases List.mem_append.mp hm with hm | hm
  · exact hm
  · rw [disciplined_append] at hd
    have hlater := (hd.2.later hm).1
    rcases h with hlt | ⟨hterm, hvote⟩
    · exact absurd hlater (by simp only; omega)
    · rcases hardAfter_mem {} rs with hinit | hmem
      · rw [hinit] at hvote
        exact absurd hvote.symm hv
      · rw [← hterm, ← hvote]
        exact hmem

/-! ## What the disk holds -/

/-- The records on disk, in the order they were written. -/
def Machine.records (m : Machine) : List WalRecord := m.places.map Place.record

theorem Machine.call_stored {rec : WalRecord} (hst : Stored J m.disk m.places)
    (h : m.call J rec = some m') :
    Stored J m'.disk m'.places ∧ m'.records = m.records ++ [rec] ∧
      m'.announced = m.announced := by
  simp only [Machine.call, Option.bind_eq_bind, Option.bind_eq_some_iff] at h
  obtain ⟨disk, hw, h⟩ := h
  cases h
  exact ⟨hst.writeOne hw, by simp [Machine.records, nextPlace], rfl⟩

theorem Machine.calls_stored (hst : Stored J m.disk m.places) (h : m.calls J rs = some m') :
    Stored J m'.disk m'.places ∧ m'.records = m.records ++ rs ∧
      m'.announced = m.announced := by
  induction rs generalizing m with
  | nil =>
    cases h
    exact ⟨hst, (List.append_nil _).symm, rfl⟩
  | cons rec rs ih =>
    rw [Machine.calls, List.foldlM_cons, Option.bind_eq_bind, Option.bind_eq_some_iff] at h
    obtain ⟨m₁, h₁, h⟩ := h
    obtain ⟨hst₁, hrec₁, hann₁⟩ := Machine.call_stored hst h₁
    obtain ⟨hst', hrec', hann'⟩ := ih hst₁ h
    refine ⟨hst', ?_, hann'.trans hann₁⟩
    rw [hrec', hrec₁, List.append_assoc]
    rfl

/-- The constructor takes over the hard state as it was recovered; what it writes are
    entries. -/
theorem construct_persists {r : RecoveryResult} {n : RaftNode}
    (h : RaftNode.construct J r = some n) :
    Disciplined r.hardState n.wal ∧ hardAfter r.hardState n.wal = hardOf n := by
  have hbase : (RaftNode.recoveredBase [] r).wal = [] ∧
      hardOf (RaftNode.recoveredBase [] r) = r.hardState := by
    unfold RaftNode.recoveredBase
    dsimp only
    split
    · exact ⟨rfl, rfl⟩
    · exact ⟨rfl, rfl⟩
  have hfold : ∀ (es : List LogEntry) (n₀ : RaftNode),
      Persists n₀ (es.foldl (fun n e => n.appendLog J e) n₀) := by
    intro es
    induction es with
    | nil => exact fun n₀ => .refl rfl rfl
    | cons e es ih => exact fun n₀ => (persists_appendLog J n₀ e).trans (ih _)
  unfold RaftNode.construct at h
  dsimp only at h
  split at h
  · cases h
    obtain ⟨rs, hwal, hd, hafter⟩ :=
      hfold (RaftNode.recoveredEntries J r) (RaftNode.recoveredBase [] r)
    rw [hbase.1, List.nil_append] at hwal
    rw [hbase.2] at hd hafter
    rw [hwal]
    exact ⟨hd, hafter⟩
  · exact absurd h (by simp)

/-! ## The invariant -/

/-- What holds as long as crashes do no harm. -/
structure Sound (J : Json.Codec) (m : Machine) : Prop where
  stored : Stored J m.disk m.places
  disciplined : Disciplined {} m.records
  /-- Memory and disk agree on the term and the vote. -/
  node : ∀ n, m.node = some n → hardAfter {} m.records = hardOf n
  announced : ∀ v ∈ m.announced,
    v.2 ≠ "" ∧ .hardState { term := v.1, votedFor := v.2 } ∈ m.records

theorem sound_fresh (J : Json.Codec) (maxSegmentBytes : Nat) :
    Sound J (.fresh maxSegmentBytes) :=
  ⟨stored_empty J maxSegmentBytes, trivial, by simp [Machine.fresh], by simp [Machine.fresh]⟩

theorem Sound.keepsVotes (h : Sound J m) : m.KeepsVotes J := by
  have hkeep : ∀ v ∈ m.announced, Binds (hardAfter {} m.records) v := by
    intro v hv
    exact keeps_of_mem h.disciplined (h.announced v hv).1 (h.announced v hv).2
  unfold Machine.KeepsVotes
  cases hn : m.node with
  | some n =>
    rw [h.node n hn] at hkeep
    exact hkeep
  | none =>
    refine ⟨_, h.stored.recover, ?_⟩
    rw [replay_hardState]
    exact hkeep

/-- No two candidates in one term. -/
theorem Sound.one_candidate (h : Sound J m) {T : Nat} {c c' : String} (hc : (T, c) ∈ m.announced)
    (hc' : (T, c') ∈ m.announced) : c = c' :=
  h.disciplined.one_vote (h.announced _ hc).2 (h.announced _ hc').2 rfl (h.announced _ hc).1
    (h.announced _ hc').1

/-- A task, before it runs: its records continue those on disk. -/
theorem Sound.outcome (h : Sound J m) {task : Task} {n : RaftNode} {votes : List (Nat × String)}
    (hfits : task.TermFits m) (ho : task.outcome J cfg m = some (n, rs, votes)) :
    Disciplined {} (m.records ++ rs) ∧ hardAfter {} (m.records ++ rs) = hardOf n ∧
      ∀ v ∈ votes, .hardState { term := v.1, votedFor := v.2 } ∈ rs := by
  rw [disciplined_append, hardAfter_append]
  cases task with
  | construct =>
    simp only [Task.outcome] at ho
    split at ho
    · exact absurd ho (by simp)
    · simp only [Option.bind_eq_bind, h.stored.recover, Option.bind_some,
        Option.bind_eq_some_iff] at ho
      obtain ⟨n', hn', ho⟩ := ho
      cases ho
      have hcon := construct_persists hn'
      rw [replay_hardState] at hcon
      exact ⟨⟨h.disciplined, hcon.1⟩, hcon.2, by simp⟩
  | enter sec =>
    simp only [Task.outcome, Option.bind_eq_bind, Option.bind_eq_some_iff] at ho
    obtain ⟨n₀, hn₀, n', hrun, ho⟩ := ho
    cases ho
    rw [announces64_eq cfg (hfits n₀ hn₀)]
    rw [run64_eq J cfg (hfits n₀ hn₀)] at hrun
    have hacts := acts_of_run hrun
    obtain ⟨rs', hwal, hd, hafter⟩ := hacts.persists
    rw [h.node n₀ hn₀]
    refine ⟨⟨h.disciplined, ?_⟩, ?_, fun v hv => hacts.announced hv⟩
    · rw [hwal, List.drop_left]
      exact hd
    · rw [hwal, List.drop_left]
      exact hafter

/-- The middle of a task: the records on disk are those of before and some of the task's. -/
theorem Sound.during (h : Sound J m) {task : Task} {k : Nat} (hfits : task.TermFits m)
    (hm' : m.during J cfg task k = some m') :
    Stored J m'.disk m'.places ∧ Disciplined {} m'.records ∧ m.records <+: m'.records ∧
      m'.announced = m.announced := by
  simp only [Machine.during, Option.bind_eq_bind, Option.bind_eq_some_iff] at hm'
  obtain ⟨⟨n, rs, votes⟩, ho, m₁, hcalls, hm'⟩ := hm'
  obtain ⟨hd, -, -⟩ := h.outcome hfits ho
  obtain ⟨hst₁, hrec₁, hann₁⟩ := Machine.calls_stored h.stored hcalls
  have hfirst : ∀ j, Disciplined {} (m.records ++ rs.take j) := by
    intro j
    rw [← List.take_append_drop j rs, ← List.append_assoc, disciplined_append] at hd
    exact hd.1
  split at hm'
  · rename_i rec hrec
    simp only [Machine.writeOnly, Option.bind_eq_bind, Option.bind_eq_some_iff] at hm'
    obtain ⟨disk, hw, hm'⟩ := hm'
    cases hm'
    have hrecs : m.records ++ rs.take (k + 1) = m₁.records ++ [rec] := by
      rw [hrec₁, List.take_add_one, hrec, List.append_assoc]
      rfl
    refine ⟨hst₁.write (writeOne_eq hw).1, ?_, ?_, hann₁⟩
    · have := hfirst (k + 1)
      rw [hrecs] at this
      simpa [Machine.records, nextPlace] using this
    · refine ⟨rs.take (k + 1), ?_⟩
      rw [hrecs]
      simp [Machine.records, nextPlace]
  · cases hm'
    exact ⟨hst₁, by rw [hrec₁]; exact hfirst k, ⟨_, hrec₁.symm⟩, hann₁⟩

/-! ## A crash -/

section Crash

variable {cut : Nat} (hst : Stored J m.disk m.places) (hd : Disciplined {} m.records)
  (hann : ∀ v ∈ m.announced, v.2 ≠ "" ∧ .hardState { term := v.1, votedFor := v.2 } ∈ m.records)

/-- A vote lies before the cut exactly if its record is among those the cut leaves. -/
theorem sparesVotes_iff : m.SparesVotes cut ↔ ∀ v ∈ m.announced,
    .hardState { term := v.1, votedFor := v.2 } ∈
      recordsBefore m.disk.currentSegment cut m.places := by
  refine forall₂_congr fun v _ => ?_
  simp only [recordsBefore, List.mem_map, List.mem_filter, decide_eq_true_eq]
  constructor
  · rintro ⟨p, hp, hrec, hbefore⟩
    exact ⟨p, ⟨hp, hbefore⟩, hrec⟩
  · rintro ⟨p, ⟨hp, hbefore⟩, hrec⟩
    exact ⟨p, hp, hrec, hbefore⟩

include hst hd hann in
/-- **A crash keeps the votes exactly if it spares their records.** -/
theorem Machine.crash_keepsVotes (h : m.crash cut = some m') :
    m'.KeepsVotes J ↔ m.SparesVotes cut := by
  unfold Machine.crash at h
  split at h
  · cases h
    obtain ⟨hrec, rest, hfirst⟩ := hst.cut cut m.disk.maxSegmentBytes
    have hd' := hd
    rw [Machine.records, ← hfirst] at hd'
    rw [sparesVotes_iff]
    constructor
    · rintro ⟨r, hr, hkeep⟩ v hv
      rw [hrec] at hr
      cases hr
      have hmem := (hann v hv).2
      rw [Machine.records, ← hfirst] at hmem
      have := hkeep v hv
      rw [replay_hardState] at this
      exact mem_of_keeps hd' (hann v hv).1 hmem this
    · intro hspare
      refine ⟨_, hrec, ?_⟩
      intro v hv
      rw [replay_hardState]
      rw [disciplined_append] at hd'
      exact keeps_of_mem hd'.1 (hann v hv).1 (hspare v hv)
  · exact absurd h (by simp)

include hst hd hann in
/-- A crash between two records that spares the votes leaves a sound machine. -/
theorem Machine.crash_sound (h : m.crash cut = some m') (hspare : m.SparesVotes cut)
    (hwhole : m.Whole cut) : Sound J m' := by
  unfold Machine.crash at h
  split at h
  · cases h
    obtain ⟨-, rest, hfirst⟩ := hst.cut cut m.disk.maxSegmentBytes
    rw [Machine.records, ← hfirst, disciplined_append] at hd
    exact {
      stored := hst.cut_whole m.disk.maxSegmentBytes hwhole
      disciplined := hd.1
      node := by simp
      announced := fun v hv => ⟨(hann v hv).1, sparesVotes_iff.mp hspare v hv⟩ }
  · exact absurd h (by simp)

end Crash

/-- Votes are announced for somebody. -/
theorem Task.named {task : Task} {n : RaftNode} {votes : List (Nat × String)}
    (hid : cfg.nodeId ≠ "") (ho : task.outcome J cfg m = some (n, rs, votes))
    (hok : (Life.run task).Spares J cfg m) : ∀ v ∈ votes, v.2 ≠ "" := by
  cases task with
  | construct =>
    simp only [Task.outcome] at ho
    split at ho
    · exact absurd ho (by simp)
    · simp only [Option.bind_eq_bind, Option.bind_eq_some_iff] at ho
      obtain ⟨r, -, n', -, ho⟩ := ho
      cases ho
      simp
  | enter sec =>
    simp only [Task.outcome, Option.bind_eq_bind, Option.bind_eq_some_iff] at ho
    obtain ⟨n₀, -, n', -, ho⟩ := ho
    cases ho
    intro v hv
    cases sec with
    | startElection id =>
      obtain ⟨-, -, rfl⟩ := List.mem_map.mp hv
      exact hid
    | requestVote req =>
      simp only [Section.announces64, Section.announces] at hv
      split at hv
      · rw [List.mem_singleton.mp hv]
        intro hempty
        exact hok.1 (congrArg some hempty)
      · exact absurd hv (by simp)
    | _ => exact absurd hv (by simp [Section.announces64, Section.announces])

/-- The step lemma. -/
theorem Sound.step (hid : cfg.nodeId ≠ "") (h : Sound J m) {ev : Life}
    (hok : ev.Spares J cfg m) (hstep : ev.step J cfg m = some m') : Sound J m' := by
  cases ev with
  | run task =>
    simp only [Life.step, Option.bind_eq_bind, Option.bind_eq_some_iff] at hstep
    obtain ⟨⟨n, rs, votes⟩, ho, m₁, hcalls, hstep⟩ := hstep
    cases hstep
    obtain ⟨hd, hafter, hvotes⟩ := h.outcome hok.2 ho
    obtain ⟨hst₁, hrec₁, -⟩ := Machine.calls_stored h.stored hcalls
    refine ⟨hst₁, ?_, ?_, ?_⟩
    · change Disciplined {} m₁.records
      rw [hrec₁]
      exact hd
    · intro n' hn'
      cases hn'
      change Proof.hardAfter {} m₁.records = _
      rw [hrec₁]
      exact hafter
    · intro v hv
      change _ ∧ _ ∈ m₁.records
      rw [hrec₁]
      rcases List.mem_append.mp hv with hv | hv
      · exact ⟨(h.announced v hv).1, List.mem_append_left _ (h.announced v hv).2⟩
      · exact ⟨task.named hid ho hok v hv, List.mem_append_right _ (hvotes v hv)⟩
  | crash cut =>
    exact Machine.crash_sound h.stored h.disciplined h.announced hstep hok.1 hok.2
  | crashDuring task k cut =>
    simp only [Life.step, Option.bind_eq_bind, Option.bind_eq_some_iff] at hstep
    obtain ⟨m₁, hduring, hcrash⟩ := hstep
    obtain ⟨hst, hd, hpre, hann⟩ := h.during hok.1 hduring
    obtain ⟨hspare, hwhole⟩ := hok.2 m₁ hduring
    refine Machine.crash_sound hst hd ?_ hcrash hspare hwhole
    intro v hv
    rw [hann] at hv
    exact ⟨(h.announced v hv).1, hpre.subset (h.announced v hv).2⟩

/-- **Votes are durable as long as crashes spare their records** and no election starts at the
    largest term. In every life of the node, at every point: the votes it has announced bind it,
    and no two of them name different candidates in one term. A crash at this point, between or
    inside sections and at any byte, keeps them exactly if their records lie before the cut. -/
theorem votes_durable (J : Json.Codec) (cfg : RaftConfig) (hid : cfg.nodeId ≠ "")
    (maxSegmentBytes : Nat) {tr : List (Machine × Life)} {m : Machine}
    (run : Runs (Life.step J cfg) (fun m ev => ev.Spares J cfg m) (.fresh maxSegmentBytes) tr m) :
    m.KeepsVotes J ∧
      (∀ T c c', (T, c) ∈ m.announced → (T, c') ∈ m.announced → c = c') ∧
      (∀ cut m', m.crash cut = some m' → (m'.KeepsVotes J ↔ m.SparesVotes cut)) ∧
      ∀ task k m₁ cut m', task.TermFits m → m.during J cfg task k = some m₁ →
        m₁.crash cut = some m' → (m'.KeepsVotes J ↔ m₁.SparesVotes cut) := by
  have hsound : Sound J m :=
    run.invariant (fun _ _ _ h hok hstep => h.step hid hok hstep) (sound_fresh J maxSegmentBytes)
  refine ⟨hsound.keepsVotes, fun T c c' => hsound.one_candidate, ?_, ?_⟩
  · intro cut m' hcrash
    exact Machine.crash_keepsVotes hsound.stored hsound.disciplined hsound.announced hcrash
  · intro task k m₁ cut m' hfits hduring hcrash
    obtain ⟨hst, hd, hpre, hann⟩ := hsound.during hfits hduring
    refine Machine.crash_keepsVotes hst hd ?_ hcrash
    intro v hv
    rw [hann] at hv
    exact ⟨(hsound.announced v hv).1, hpre.subset (hsound.announced v hv).2⟩

/-! ## Node `A` of a cluster of three -/

def nodeA : RaftConfig := { nodeId := "A", peers := ["B", "C"] }

/-- A vote is asked for in term 1. -/
def asks (candidateId : String) : Life :=
  .run (.enter (.requestVote { term := 1, candidateId, lastLogIndex := 0, lastLogTerm := 0 }))

/-- `A` votes for `B` in its first life; the power fails and leaves `cut` bytes, and `A` comes
    back. -/
def votedThenDown (cut : Nat) : List Life :=
  [.run .construct, asks "B", .crash cut, .run .construct]

/-- The two hard states of that section take 69 bytes. If they are spared, the vote binds. -/
theorem votes_durable_spared : ∃ tr m,
    Runs (Life.step Json.text nodeA) (fun m ev => ev.Spares Json.text nodeA m) (.fresh 1000) tr m ∧
      (1, "B") ∈ m.announced ∧ m.KeepsVotes Json.text := by
  obtain ⟨m, hm, h⟩ := (Option.any_eq_true _ _).mp
    (show (exec (Life.step Json.text nodeA) (fun m ev => ev.Spares Json.text nodeA m)
      (.fresh 1000) (votedThenDown 69)).any (fun m => decide ((1, "B") ∈ m.announced)) = true by
        decide +kernel)
  have run := runs_of_exec hm
  exact ⟨_, m, run, of_decide_eq_true h,
    (votes_durable Json.text nodeA (by decide) 1000 run).1⟩

/-- **A vote that a power failure undoes**: `WriteHardState` returned without `fdatasync`, the
    crash takes the segment back to byte 0, and `A` comes back in term 0 and votes for `C`. -/
theorem votes_durable_fails : ∃ tr m₁ ev m,
    Runs (Life.step Json.text nodeA) (fun _ _ => True) (.fresh 1000) tr m ∧ (m₁, ev) ∈ tr ∧
      ¬m₁.KeepsVotes Json.text ∧ (1, "B") ∈ m.announced ∧ (1, "C") ∈ m.announced := by
  obtain ⟨m₁, hm₁, h⟩ := (Option.any_eq_true _ _).mp
    (show (exec (Life.step Json.text nodeA) (fun _ _ => True) (.fresh 1000)
      (votedThenDown 0)).any (fun m₁ =>
        decide (m₁.announced = [(1, "B")]) && m₁.node.any (fun n => decide (n.currentTerm = 0)) &&
        (exec (Life.step Json.text nodeA) (fun _ _ => True) m₁ [asks "C"]).any
          (fun m => decide (m.announced = [(1, "B"), (1, "C")]))) = true by decide +kernel)
  rw [Bool.and_eq_true, Bool.and_eq_true, decide_eq_true_eq] at h
  obtain ⟨⟨hann, hnode⟩, hlast⟩ := h
  obtain ⟨n, hn, hterm⟩ := (Option.any_eq_true _ _).mp hnode
  obtain ⟨m, hm, hvotes⟩ := (Option.any_eq_true _ _).mp hlast
  have hvotes := of_decide_eq_true hvotes
  refine ⟨_, m₁, asks "C", m, (runs_of_exec hm₁).trans (runs_of_exec hm), ?_, ?_, ?_, ?_⟩
  · simp [traceOf]
  · unfold Machine.KeepsVotes
    rw [hn, hann]
    intro hkeep
    have := hkeep (1, "B") (by simp)
    simp [Binds, hardOf, of_decide_eq_true hterm] at this
  · simp [hvotes]
  · simp [hvotes]

/-- Without a crash: behind the largest term the election starts over at 0, and the largest term
    has two candidates. -/
example : (exec (Life.step Json.text nodeA) (fun _ _ => True) (.fresh 1000)
    [.run .construct,
      .run (.enter (.requestVote { term := 2 ^ 64 - 1, candidateId := "B" })),
      .run (.enter (.startElection 0)),
      .run (.enter (.requestVote { term := 2 ^ 64 - 1, candidateId := "C" }))]).any
    (fun m => decide (m.announced =
      [(2 ^ 64 - 1, "B"), (0, "A"), (0, "A"), (2 ^ 64 - 1, "C")])) = true := by
  decide +kernel

end Proof
end OrcDb
