import OrcDb.Raft.Host
import OrcDb.Proof.Raft.OneNode
import OrcDb.Proof.Raft.Election
import OrcDb.Proof.Storage.Snapshot

/-!
# Expired keys over several lives

`Put` computes the expiry from the clock at the moment an entry is applied. A snapshot carries
it over a restart; replaying the log does not, it applies the entry once more and dates the
expiry from then. So the law "once expired, never seen again" needs that no entry with a TTL
is applied twice — neither by a restart without a snapshot behind it nor by a compaction that
shifts the log — and then it holds through any number of lives (`stays_expired`).

The invariant is a bound, `Dated`: whatever in the store, or in a snapshot on disk, stems from
an applied entry with a TTL expires no later than that application said.
-/

set_option autoImplicit false

namespace OrcDb
namespace Proof

open Lib

/-! ## The law and the condition -/

/-- A `Put` whose TTL `ApplyEntry` passes on. -/
def HasTtl (e : LogEntry) : Prop := e.opType = .Put ∧ 0 < e.ttlMs

instance (e : LogEntry) : Decidable (HasTtl e) := inferInstanceAs (Decidable (_ ∧ _))

/-- The entry `e` was applied at `t`, for the first time. -/
def FirstApplied (history : List (LogEntry × Int)) (e : LogEntry) (t : Int) : Prop :=
  ∃ before after, history = before ++ (e, t) :: after ∧ ∀ p ∈ before, p.1 ≠ e

/-- The value in the store is the one `e` has written. -/
def WrittenBy (entry : KVEntry) (e : LogEntry) : Prop :=
  entry.value = e.value ∧ entry.raftIndex = e.index

/-- No read later than the TTL after the first application returns the value. -/
def StaysExpired (h : Host) : Prop :=
  ∀ e t, FirstApplied h.history e t → HasTtl e → ∀ now, t + e.ttlMs * 1000000 < now →
    (∀ entry, h.store.get now e.key = some entry → ¬WrittenBy entry e) ∧
      ∀ pattern limit entry, (e.key, entry) ∈ h.store.scan now pattern limit →
        ¬WrittenBy entry e

/-- The step applies no entry with a TTL at an index that was applied before, and the clock
    does not show a time before 1970. -/
def AppliesOnce (h : Host) : HostEvent → Prop
  | .beginApply now =>
      ∀ e ∈ h.node.log.getEntry (h.node.lastApplied + 1),
        (HasTtl e → e.index ≠ 0 ∧ 0 ≤ now) ∧
          ∀ p ∈ h.history, p.1.index = e.index → ¬HasTtl p.1 ∧ ¬HasTtl e
  | .endApply now | .stallApply now => 0 ≤ now
  | _ => True

instance (h : Host) (ev : HostEvent) : Decidable (AppliesOnce h ev) :=
  match ev with
  | .beginApply now => inferInstanceAs (Decidable
      (∀ e ∈ h.node.log.getEntry (h.node.lastApplied + 1),
        (HasTtl e → e.index ≠ 0 ∧ 0 ≤ now) ∧
          ∀ p ∈ h.history, p.1.index = e.index → ¬HasTtl p.1 ∧ ¬HasTtl e))
  | .endApply now | .stallApply now => inferInstanceAs (Decidable (0 ≤ now))
  | .enter _ | .cas _ _ _ _ | .stop | .restart _ => inferInstanceAs (Decidable True)

/-! ## The bound -/

variable {J : Json.Codec} {cfg : RaftConfig} {history : List (LogEntry × Int)} {s : KVStore}
  {entry : KVEntry} {e : LogEntry} {t t' now : Int}

/-- The entry stems from an application, or from `CAS`, which writes index 0; and an
    application with a TTL that it may stem from bounds its expiry. -/
def DatedEntry (history : List (LogEntry × Int)) (entry : KVEntry) : Prop :=
  (entry.raftIndex = 0 ∨ ∃ p ∈ history, p.1.index = entry.raftIndex) ∧
    ∀ p ∈ history, HasTtl p.1 → p.1.index = entry.raftIndex →
      ∃ x, entry.expiresAt = some x ∧ x ≤ p.2 + p.1.ttlMs * 1000000

def Dated (history : List (LogEntry × Int)) (s : KVStore) : Prop :=
  ∀ (k : String) entry, s.data[k]? = some entry → DatedEntry history entry

/-- What `AppliesOnce` says of the entry that is applied next. -/
structure Once (history : List (LogEntry × Int)) (e : LogEntry) (now : Int) : Prop where
  index_pos : HasTtl e → e.index ≠ 0
  clock : HasTtl e → 0 ≤ now
  fresh : ∀ p ∈ history, p.1.index = e.index → ¬HasTtl p.1 ∧ ¬HasTtl e

/-- A new application does not concern what is already there. -/
theorem DatedEntry.later (h : DatedEntry history entry) (honce : Once history e now) :
    DatedEntry (history ++ [(e, now)]) entry := by
  obtain ⟨horigin, hdue⟩ := h
  refine ⟨?_, ?_⟩
  · rcases horigin with hzero | ⟨p, hp, hidx⟩
    · exact Or.inl hzero
    · exact Or.inr ⟨p, List.mem_append_left _ hp, hidx⟩
  · intro p hp httl hidx
    rcases List.mem_append.mp hp with hp | hp
    · exact hdue p hp httl hidx
    · rw [List.mem_singleton] at hp
      subst hp
      -- the entry would have to stem from the application that comes only now
      rcases horigin with hzero | ⟨q, hq, hqidx⟩
      · exact absurd (hidx.trans hzero) (honce.index_pos httl)
      · exact absurd httl (honce.fresh q hq (hqidx.trans hidx.symm)).2

theorem Dated.later (h : Dated history s) (honce : Once history e now) :
    Dated (history ++ [(e, now)]) s :=
  fun k entry hk => (h k entry hk).later honce

/-- The entry a `Put` leaves is dated by its own application. -/
theorem datedEntry_put (honce : Once history e now) :
    DatedEntry (history ++ [(e, now)]) (entryAfterPut s now e.key e.value e.index
      (if e.ttlMs > 0 then some e.ttlMs else none)) := by
  refine ⟨Or.inr ⟨(e, now), by simp, rfl⟩, ?_⟩
  intro p hp httl hidx
  rcases List.mem_append.mp hp with hp | hp
  · exact absurd httl (honce.fresh p hp hidx).1
  · rw [List.mem_singleton] at hp
    subst hp
    have hpos : 0 < e.ttlMs := httl.2
    have hclock := honce.clock httl
    refine ⟨wrapInt64 (now + e.ttlMs * 1000000), by simp [entryAfterPut, hpos], ?_⟩
    exact wrapInt64_le (by omega)

/-- `ApplyEntry` keeps the bound. -/
theorem Dated.applyEntry (h : Dated history s) (honce : Once history e now) :
    Dated (history ++ [(e, now)]) (s.applyEntry now e) := by
  unfold KVStore.applyEntry
  cases e.opType with
  | Put =>
    intro k entry hk
    rw [getElem?_put] at hk
    split at hk
    · cases hk
      exact datedEntry_put honce
    · exact (h k entry hk).later honce
  | Delete =>
    intro k entry hk
    rw [getElem?_delete] at hk
    split at hk
    · exact absurd hk (by simp)
    · exact (h k entry hk).later honce
  | NoOp => exact h.later honce
  | unnamed code => exact h.later honce

/-- `CAS` writes index 0, which no application has. -/
theorem Dated.cas (h : Dated history s) (hpos : ∀ p ∈ history, HasTtl p.1 → p.1.index ≠ 0)
    (now : Int) (key expected newValue : String) :
    Dated history (s.cas now key expected newValue 0).1 := by
  unfold KVStore.cas
  split
  · exact h
  · rename_i old hold
    split
    · exact h
    · intro k entry hk
      simp only [Std.ExtTreeMap.getElem?_insert, compare_eq_iff_eq] at hk
      split at hk
      · cases hk
        exact ⟨Or.inl rfl, fun p hp httl hidx => absurd hidx (hpos p hp httl)⟩
      · exact h k entry hk

/-- A snapshot never moves an expiry back, unless the clock is before the epoch. -/
theorem restoredExpiry_le {x : Int} (hx : entry.expiresAt = some x) (hpos : 0 ≤ x) :
    ∃ y, restoredExpiry entry = some y ∧ y ≤ x := by
  have hms : x.tdiv 1000000 = x / 1000000 := Int.tdiv_eq_ediv_of_nonneg hpos
  refine ⟨wrapInt64 (x / 1000000 * 1000000), ?_, ?_⟩
  · simp only [restoredExpiry, KVStore.expiresMs, hx, hms]
    rw [if_pos (by omega)]
  · have := wrapInt64_le (x := x / 1000000 * 1000000) (by omega)
    omega

theorem Dated.restored (h : Dated history s) (hclock : 0 ≤ t) :
    Dated history (Proof.restored s t t') := by
  intro k entry hk
  rw [Proof.restored, Std.ExtTreeMap.getElem?_filterMap'] at hk
  obtain ⟨old, hold, hk⟩ := Option.bind_eq_some_iff.mp hk
  unfold restoredEntry at hk
  split at hk
  · exact absurd hk (by simp)
  · rename_i hexp
    cases hk
    obtain ⟨horigin, hdue⟩ := h k old hold
    refine ⟨horigin, ?_⟩
    intro p hp httl hidx
    obtain ⟨x, hx, hle⟩ := hdue p hp httl hidx
    have hlate : t ≤ x := by simpa [KVEntry.expired, hx] using hexp
    obtain ⟨y, hy, hyx⟩ := restoredExpiry_le hx (by omega)
    exact ⟨y, hy, by omega⟩

/-! ## Whole runs -/

/-- The store and every snapshot on disk keep the bound. -/
structure InTime (J : Json.Codec) (h : Host) : Prop where
  index_pos : ∀ p ∈ h.history, HasTtl p.1 → p.1.index ≠ 0
  store : Dated h.history h.store
  disk : ∀ i t data, .snapshot i t data ∈ h.node.wal →
    ∃ s t₀, data = KVStore.takeSnapshot J s t₀ ∧ 0 ≤ t₀ ∧ Dated h.history s

theorem dated_empty (history : List (LogEntry × Int)) : Dated history {} := by
  intro k entry hk
  exact absurd hk (by simp)

theorem latestSnapshot_mem {wal : List WalRecord} {data : String}
    (h : (replay wal).latestSnapshot = some data) : ∃ i t, .snapshot i t data ∈ wal := by
  induction wal using List.reverseRecOn with
  | nil => exact absurd h (by simp [replay])
  | append_singleton wal rec ih =>
    rw [replay_concat] at h
    cases rec with
    | snapshot i t d =>
      cases h
      exact ⟨i, t, by simp⟩
    | logEntry e =>
      obtain ⟨i, t, hmem⟩ := ih h
      exact ⟨i, t, List.mem_append_left _ hmem⟩
    | hardState hs =>
      obtain ⟨i, t, hmem⟩ := ih h
      exact ⟨i, t, List.mem_append_left _ hmem⟩

variable {h h' : Host}

/-- A section that does not apply an entry: only its snapshot, if it writes one, is new. -/
theorem InTime.enter (hin : InTime J h) {sec : Section} {n : RaftNode}
    (hrun : sec.run J cfg h.node = some n)
    (hdata : ∀ data, sec = .endApply data ∨ sec = .stallApply data →
      ∃ t₀, data = h.store.takeSnapshot J t₀ ∧ 0 ≤ t₀) : InTime J { h with node := n } := by
  refine ⟨hin.index_pos, hin.store, ?_⟩
  intro i t data hrec
  rcases (acts_of_run hrun).snapshots hrec with hmem | hsec
  · exact hin.disk i t data hmem
  · obtain ⟨t₀, rfl, hclock⟩ := hdata data hsec
    exact ⟨h.store, t₀, rfl, hclock, hin.store⟩

/-- The first section of `ApplyLoop`, with `ApplyEntry`. -/
theorem InTime.beginApply (hin : InTime J h) {n : RaftNode} {next : Nat}
    (hok : AppliesOnce h (.beginApply now))
    (hrun : Section.beginApply.run J cfg h.node = some n) (happ : n.applying = some (next, e)) :
    InTime J (Host.mk n (h.store.applyEntry now e) (h.history ++ [(e, now)])) := by
  cases acts_of_run hrun with
  | @beginApply e' idle behind entry =>
    cases happ
    obtain ⟨hidx, hfresh⟩ := hok e entry
    have honce : Once h.history e now :=
      ⟨fun httl => (hidx httl).1, fun httl => (hidx httl).2, hfresh⟩
    refine ⟨?_, hin.store.applyEntry honce, ?_⟩
    · intro p hp httl
      rcases List.mem_append.mp hp with hp | hp
      · exact hin.index_pos p hp httl
      · rw [List.mem_singleton.mp hp] at httl ⊢
        exact honce.index_pos httl
    · intro i t data hrec
      obtain ⟨s, t₀, hdata, hclock, hdated⟩ := hin.disk i t data hrec
      exact ⟨s, t₀, hdata, hclock, hdated.later honce⟩

/-- The store a constructor restores is one that was on disk. -/
theorem InTime.recovered (hin : InTime J h) {store : KVStore}
    (hstore : KVStore.recovered J (replay h.node.wal) now = some store) :
    Dated h.history store := by
  unfold KVStore.recovered at hstore
  split at hstore
  · rename_i data hdata
    obtain ⟨i, t, hmem⟩ := latestSnapshot_mem hdata
    obtain ⟨s, t₀, rfl, hclock, hdated⟩ := hin.disk i t data hmem
    rw [restoreSnapshot_takeSnapshot] at hstore
    cases hstore
    exact hdated.restored hclock
  · cases hstore
    exact dated_empty _

/-- The step lemma. -/
theorem InTime.step (hin : InTime J h) {ev : HostEvent} (hok : AppliesOnce h ev)
    (hstep : ev.step J cfg h = some h') : InTime J h' := by
  cases ev with
  | enter sec =>
    simp only [HostEvent.step] at hstep
    split at hstep
    · rename_i hsec
      simp only [Option.bind_eq_bind, Option.bind_eq_some_iff] at hstep
      obtain ⟨n, hrun, hstep⟩ := hstep
      cases hstep
      refine hin.enter hrun ?_
      rintro data (rfl | rfl)
      · exact absurd hsec.2 (by simp [Section.ofApplyLoop])
      · exact absurd hsec.2 (by simp [Section.ofApplyLoop])
    · exact absurd hstep (by simp)
  | beginApply now =>
    simp only [HostEvent.step] at hstep
    split at hstep
    · simp only [Option.bind_eq_bind, Option.bind_eq_some_iff] at hstep
      obtain ⟨n, hrun, ⟨next, e⟩, happ, hstep⟩ := hstep
      cases hstep
      exact hin.beginApply hok hrun happ
    · exact absurd hstep (by simp)
  | endApply now =>
    simp only [HostEvent.step] at hstep
    split at hstep
    · simp only [Option.bind_eq_bind, Option.bind_eq_some_iff] at hstep
      obtain ⟨n, hrun, hstep⟩ := hstep
      cases hstep
      refine hin.enter hrun ?_
      rintro data (heq | heq)
      · cases heq
        exact ⟨now, rfl, hok⟩
      · exact absurd heq (by simp)
    · exact absurd hstep (by simp)
  | stallApply now =>
    simp only [HostEvent.step] at hstep
    split at hstep
    · simp only [Option.bind_eq_bind, Option.bind_eq_some_iff] at hstep
      obtain ⟨n, hrun, hstep⟩ := hstep
      cases hstep
      refine hin.enter hrun ?_
      rintro data (heq | heq)
      · exact absurd heq (by simp)
      · cases heq
        exact ⟨now, rfl, hok⟩
    · exact absurd hstep (by simp)
  | cas now key expected newValue =>
    simp only [HostEvent.step] at hstep
    split at hstep
    · cases hstep
      exact ⟨hin.index_pos, hin.store.cas hin.index_pos now key expected newValue, hin.disk⟩
    · exact absurd hstep (by simp)
  | stop =>
    simp only [HostEvent.step] at hstep
    split at hstep
    · cases hstep
      exact ⟨hin.index_pos, dated_empty _, hin.disk⟩
    · exact absurd hstep (by simp)
  | restart now =>
    simp only [HostEvent.step] at hstep
    split at hstep
    · exact absurd hstep (by simp)
    · simp only [Option.bind_eq_bind, Option.bind_eq_some_iff] at hstep
      obtain ⟨store, hstore, n, hrec, hstep⟩ := hstep
      cases hstep
      obtain ⟨-, -, es, hwal⟩ := recover_spec hrec
      refine ⟨hin.index_pos, hin.recovered hstore, ?_⟩
      intro i t data hmem
      rw [hwal, ← mem_snapshotsOf, snapshotsOf_append, snapshotsOf_records, List.append_nil,
        mem_snapshotsOf] at hmem
      exact hin.disk i t data hmem

/-- Within the bound, nothing is read after it. -/
theorem InTime.staysExpired (hin : InTime J h) : StaysExpired h := by
  intro e t hfirst httl now hlate
  have hmem : (e, t) ∈ h.history := by
    obtain ⟨before, after, hhist, -⟩ := hfirst
    simp [hhist]
  -- whatever stems from `e` has expired by `now`
  have hgone : ∀ (k : String) entry, h.store.data[k]? = some entry → WrittenBy entry e →
      entry.expired now = true := by
    intro k entry hk hby
    obtain ⟨x, hx, hle⟩ := (hin.store k entry hk).2 (e, t) hmem httl hby.2.symm
    simp only [KVEntry.expired, hx, Option.any_some, decide_eq_true_eq]
    exact lt_of_le_of_lt hle hlate
  refine ⟨?_, ?_⟩
  · intro entry hget hby
    unfold KVStore.get at hget
    split at hget
    · exact absurd hget (by simp)
    · rename_i found hk
      split at hget
      · exact absurd hget (by simp)
      · rename_i hexp
        cases hget
        exact hexp (hgone e.key entry hk hby)
  · intro pattern limit entry hscan hby
    rw [scan_eq] at hscan
    have hin' := List.mem_filter.mp (mem_of_mem_limited hscan)
    have hk := Std.ExtTreeMap.mem_toList_iff_getElem?_eq_some.mp hin'.1
    have hexp := hgone e.key entry hk hby
    simp [Wanted, hexp] at hin'

/-- **Expired keys stay expired, if no entry with a TTL is applied twice.** In every run of a
    node over any number of lives whose apply steps meet the condition, no read later than the
    TTL after the first application of a `Put` returns the value it has written. -/
theorem stays_expired (J : Json.Codec) (cfg : RaftConfig) {tr : List (Host × HostEvent)}
    {h : Host} (run : Runs (HostEvent.step J cfg) (fun h ev => AppliesOnce h ev) {} tr h) :
    StaysExpired h := by
  have hinit : InTime J {} := ⟨by simp, dated_empty _, by simp⟩
  have hin : InTime J h := run.invariant (fun _ _ _ hi hok hstep => hi.step hok hstep) hinit
  exact hin.staysExpired

/-! ## A follower that is restarted -/

/-- `k` is put with a TTL of one millisecond. -/
def oneMs : LogEntry :=
  { term := 1, index := 1, opType := .Put, key := "k", value := "v", ttlMs := 1 }

/-- The leader sends the entry and commits it, and it is applied at the epoch; then the process
    is stopped and started again ten milliseconds later. -/
def appliedThenRestarted : List HostEvent :=
  [.enter (.appendEntries { term := 1, leaderId := "B", prevLogIndex := 0, prevLogTerm := 0,
                            entries := [oneMs], leaderCommit := 1 }),
    .beginApply 0, .endApply 0, .stop, .restart 10000000]

/-- With a snapshot behind the entry, the law holds: the entry is not applied again. -/
theorem stays_expired_snapshot : ∃ tr h,
    Runs (HostEvent.step Json.text { nodeId := "A", peers := ["B"], snapshotThreshold := 0 })
        (fun h ev => AppliesOnce h ev) {} tr h ∧
      h.history = [(oneMs, 0)] ∧ h.node.lastApplied = 1 ∧ StaysExpired h := by
  obtain ⟨h, hrun, hcheck⟩ := (Option.any_eq_true _ _).mp
    (show (exec (HostEvent.step Json.text
        { nodeId := "A", peers := ["B"], snapshotThreshold := 0 })
      (fun h ev => AppliesOnce h ev) {} appliedThenRestarted).any (fun h =>
        decide (h.history = [(oneMs, 0)]) && decide (h.node.lastApplied = 1)) = true by
          decide +kernel)
  rw [Bool.and_eq_true, decide_eq_true_eq, decide_eq_true_eq] at hcheck
  have run := runs_of_exec hrun
  exact ⟨_, h, run, hcheck.1, hcheck.2, stays_expired _ _ run⟩

/-- **A value that comes back**: without a snapshot, the entry is committed and applied once
    more after the restart, and read half a millisecond later — ten milliseconds after it was
    to expire. -/
theorem stays_expired_fails : ∃ tr h entry,
    Runs (HostEvent.step Json.text { nodeId := "A", peers := ["B"] }) (fun _ _ => True) {} tr h ∧
      FirstApplied h.history oneMs 0 ∧ h.store.get 10500000 "k" = some entry ∧
      WrittenBy entry oneMs ∧ ¬StaysExpired h := by
  obtain ⟨h, hrun, hcheck⟩ := (Option.any_eq_true _ _).mp
    (show (exec (HostEvent.step Json.text { nodeId := "A", peers := ["B"] }) (fun _ _ => True) {}
      (appliedThenRestarted ++
        [.enter (.appendEntries { term := 1, leaderId := "B", prevLogIndex := 1, prevLogTerm := 1,
                                  entries := [], leaderCommit := 1 }),
          .beginApply 10000000])).any (fun h =>
        decide (h.history = [(oneMs, 0), (oneMs, 10000000)]) &&
          (h.store.get 10500000 "k").any fun entry =>
            decide (entry.value = "v") && decide (entry.raftIndex = 1)) = true by decide +kernel)
  rw [Bool.and_eq_true, decide_eq_true_eq] at hcheck
  obtain ⟨hhist, hread⟩ := hcheck
  obtain ⟨entry, hget, hby⟩ := (Option.any_eq_true _ _).mp hread
  rw [Bool.and_eq_true, decide_eq_true_eq, decide_eq_true_eq] at hby
  have hfirst : FirstApplied h.history oneMs 0 := ⟨[], _, hhist, by simp⟩
  refine ⟨_, h, entry, runs_of_exec hrun, hfirst, hget, hby, ?_⟩
  intro hstays
  exact (hstays oneMs 0 hfirst (by decide) 10500000 (by decide)).1 entry hget hby

end Proof
end OrcDb
