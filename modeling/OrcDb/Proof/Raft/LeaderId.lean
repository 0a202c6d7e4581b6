import OrcDb.Proof.Raft.Election

/-!
# Who `leaderId_` names

`leaderId_` is written by `BecomeLeader`, and by `HandleAppendEntries` from the request. Both
are right: a leader's requests carry its own id and the term it leads (`History.packets`). But
`StartElection` raises the term and leaves `leaderId_` as it is, and so does `BecomeFollower`
when the later term comes from a vote request or from a response. A node whose `leaderId_` was
not empty then names a leader of an earlier term, and a leader that steps down names itself.

`Turn` says what a section can do to the term, the role and `leaderId_` of its node; the rest
is by cases on it.
-/

set_option autoImplicit false

namespace OrcDb

open Lib

/-- The term a message brings along, a leader's request apart. -/
def Payload.term? : Payload → Option Nat
  | .voteRequest req => some req.term
  | .voteResponse resp => some resp.term
  | .appendRequest _ => none
  | .appendResponse resp => some resp.term

/-- The node a step tells of a term otherwise than by a leader's request, and that term. -/
def Event.newTerm (s : State) : Event → Option (String × Nat)
  | .act (.startElection i) => some (i, (s.node i).currentTerm + 1)
  | .act (.recvVote _ k) | .act (.finishReplicate _ k) | .act (.deliver k) => do
      let pkt ← s.network[k]?
      let t ← pkt.payload.term?
      return (pkt.dst, t)
  | _ => none

/-- A node that is told of a later term that way does not know of a leader. -/
def Event.Unled (s : State) (ev : Event) : Prop :=
  ∀ p ∈ ev.newTerm s, (s.node p.1).currentTerm < p.2 → (s.node p.1).leaderId = ""

instance (s : State) (ev : Event) : Decidable (ev.Unled s) :=
  inferInstanceAs (Decidable (∀ p ∈ ev.newTerm s, _))

namespace Proof

variable {c : Cluster} {s s' : State} {tr : List (State × Event)} {i : String} {n n' : RaftNode}

/-- `x` has become leader in term `t`. -/
def Led (c : Cluster) (tr : List (State × Event)) (x : String) (t : Nat) : Prop :=
  ∃ p ∈ tr, p.2.EntersBecomeLeader c p.1 x t

theorem Led.mono {x : String} {t : Nat} (h : Led c tr x t) (p : State × Event) :
    Led c (tr ++ [p]) x t :=
  let ⟨q, hq, hlead⟩ := h
  ⟨q, List.mem_append_left _ hq, hlead⟩

theorem led_append {p : State × Event} {x : String} {t : Nat} :
    Led c (tr ++ [p]) x t ↔ Led c tr x t ∨ p.2.EntersBecomeLeader c p.1 x t := by
  unfold Led
  constructor
  · rintro ⟨q, hq, hlead⟩
    rcases List.mem_append.mp hq with hq | hq
    · exact Or.inl ⟨q, hq, hlead⟩
    · rw [List.mem_singleton.mp hq] at hlead
      exact Or.inr hlead
  · rintro (h | h)
    · exact Led.mono h p
    · exact ⟨p, by simp, h⟩

/-! ## What a section does to the term, the role and `leaderId_` -/

inductive Turn (c : Cluster) (s : State) (act : Action) (i : String) (n n' : RaftNode) : Prop
  /-- nothing -/
  | stay (term : n'.currentTerm = n.currentTerm) (role : n'.role = n.role)
      (leaderId : n'.leaderId = n.leaderId)
  /-- a later term that is not heard from its leader -/
  | rise (told : (Event.act act).newTerm s = some (i, n'.currentTerm))
      (term : n.currentTerm < n'.currentTerm) (role : n'.role ≠ .Leader)
      (leaderId : n'.leaderId = n.leaderId)
  /-- `BecomeLeader` -/
  | lead (enters : (Event.act act).EntersBecomeLeader c s i n.currentTerm)
      (term : n'.currentTerm = n.currentTerm) (role : n'.role = .Leader)
      (leaderId : n'.leaderId = i)
  /-- a request that `HandleAppendEntries` does not turn down for its term -/
  | follow {src : String} {id : Nat} {req : AppendEntriesRequest}
      (pkt : ⟨src, i, id, .appendRequest req⟩ ∈ s.network)
      (term : n'.currentTerm = req.term)
      (role : n.currentTerm = req.term ∧ n'.role = n.role ∨
        n.currentTerm < req.term ∧ n'.role = .Follower)
      (leaderId : n'.leaderId = req.leaderId)

theorem Turn.congr {act : Action} {n'' : RaftNode} (h : Turn c s act i n n')
    (hterm : n''.currentTerm = n'.currentTerm) (hrole : n''.role = n'.role)
    (hid : n''.leaderId = n'.leaderId) : Turn c s act i n n'' := by
  cases h with
  | stay term role leaderId =>
    exact .stay (hterm.trans term) (hrole.trans role) (hid.trans leaderId)
  | rise told term role leaderId =>
    rw [← hterm] at told term
    rw [← hrole] at role
    exact .rise told term role (hid.trans leaderId)
  | lead enters term role leaderId =>
    exact .lead enters (hterm.trans term) (hrole.trans role) (hid.trans leaderId)
  | follow pkt term role leaderId =>
    rw [← hrole] at role
    exact .follow pkt (hterm.trans term) role (hid.trans leaderId)

theorem adoptTerm_cases (n : RaftNode) (t : Nat) :
    (t ≤ n.currentTerm ∧ n.adoptTerm t "" = n) ∨
      (n.currentTerm < t ∧ (n.adoptTerm t "").currentTerm = t ∧
        (n.adoptTerm t "").role = .Follower ∧ (n.adoptTerm t "").leaderId = n.leaderId) := by
  unfold RaftNode.adoptTerm
  split
  · rename_i h
    exact Or.inr ⟨h, rfl, rfl, rfl⟩
  · rename_i h
    exact Or.inl ⟨Nat.le_of_not_lt h, rfl⟩

theorem maybeSnapshot_office (cfg : RaftConfig) (n : RaftNode) (data : String) :
    (n.maybeSnapshot cfg data).currentTerm = n.currentTerm ∧
      (n.maybeSnapshot cfg data).role = n.role ∧
      (n.maybeSnapshot cfg data).leaderId = n.leaderId := by
  unfold RaftNode.maybeSnapshot
  split
  · exact ⟨rfl, rfl, rfl⟩
  · exact ⟨rfl, rfl, rfl⟩

theorem turn_handleAppendEntries {src : String} {id k : Nat} {req : AppendEntriesRequest}
    (pkt : s.network[k]? = some ⟨src, i, id, .appendRequest req⟩) :
    Turn c s (.deliver k) i n (n.handleAppendEntries c.json req).1 := by
  have hrole : n.currentTerm ≤ req.term →
      n.currentTerm = req.term ∧ (heard n req).role = n.role ∨
        n.currentTerm < req.term ∧ (heard n req).role = .Follower := by
    intro hle
    rcases Nat.eq_or_lt_of_le hle with heq | hlt
    · rw [heard_of_eq heq]
      exact Or.inl ⟨heq, rfl⟩
    · rw [heard_of_lt hlt]
      exact Or.inr ⟨hlt, rfl⟩
  have hmem := List.mem_of_getElem? pkt
  have h' := handled c.json n req
  generalize n.handleAppendEntries c.json req = out at h' ⊢
  cases h' with
  | stale _ => exact .stay rfl rfl rfl
  | rejected hle _ => exact .follow hmem (heard_currentTerm hle) (hrole hle) rfl
  | accepted hle _ =>
    rw [acceptEntries_eq]
    exact .follow hmem (heard_currentTerm hle) (hrole hle) rfl

/-- The inversion for these three fields. -/
theorem Does.turn {act : Action} {e : Effect} (h : Does c s act e) :
    Turn c s act e.actor (s.node e.actor) e.node := by
  cases h with
  | @startElection i n up idle role =>
    rw [up.node]
    refine .rise ?_ (Nat.lt_succ_self _)
      (by simp [RaftNode.startElection, RaftNode.persistHardState])
      rfl
    simp only [Event.newTerm, up.node]
    rfl
  | @recvVote i p k n call rest resp up open' pending pkt =>
    rw [up.node]
    have h' := voteAnswered n call resp
    generalize n.recvVote call resp = out at h' ⊢
    cases h' with
    | newer hlt =>
      refine .rise ?_ hlt (by simp [RaftNode.becomeFollower, RaftNode.persistHardState]) rfl
      simp only [Event.newTerm, pkt]
      rfl
    | vote _ _ _ _ | other _ _ => exact .stay rfl rfl rfl
  | @finishElection i n call up open' pending =>
    rw [up.node]
    unfold RaftNode.finishElection
    dsimp only
    split
    · rename_i hwins
      refine .lead ⟨Or.inl rfl, call, ?_, ?_, ?_⟩ rfl rfl rfl
      · rw [up.node]
        exact open'
      · rw [up.node]
        exact hwins
      · rw [up.node]
    · exact .stay rfl rfl rfl
  | @finishReplicate i k n call resp up open' pkt =>
    rw [up.node]
    have h' := finished (c.config i) n call resp
    generalize n.finishReplicate (c.config i) call resp = out at h' ⊢
    cases h' with
    | newer hlt =>
      refine .rise ?_ hlt (by simp [RaftNode.becomeFollower, RaftNode.persistHardState]) rfl
      simp only [Event.newTerm, pkt]
      rfl
    | success _ _ _ =>
      rw [advanceCommitIndex_eq]
      exact .stay rfl rfl rfl
    | dropped _ _ | failure _ _ _ => exact .stay rfl rfl rfl
  | @handleRequestVote src i id k n req up pkt =>
    rw [up.node]
    have hturn : Turn c s (.deliver k) i n (n.adoptTerm req.term "") := by
      rcases adoptTerm_cases n req.term with ⟨-, heq⟩ | ⟨hlt, hterm, hrole, hid⟩
      · rw [heq]
        exact .stay rfl rfl rfl
      · refine .rise ?_ (by rw [hterm]; exact hlt) (by rw [hrole]; simp) hid
        simp only [Event.newTerm, pkt, hterm]
        rfl
    have h' := voteHandled n req
    generalize n.handleRequestVote req = out at h' ⊢
    cases h' with
    | stale _ => exact .stay rfl rfl rfl
    | granted _ _ =>
      -- the vote itself is none of the three fields
      exact hturn.congr rfl rfl rfl
    | denied _ _ => exact hturn
  | @handleAppendEntries src i id k n req up pkt =>
    rw [up.node]
    exact turn_handleAppendEntries pkt
  | @propose i key value op ttlMs n up =>
    rw [up.node]
    unfold RaftNode.propose
    split
    · exact .stay rfl rfl rfl
    · exact .stay rfl rfl rfl
  | @endApply i data n next e up busy =>
    rw [up.node]
    unfold RaftNode.endApply
    dsimp only
    split
    · obtain ⟨hterm, hrole, hid⟩ := maybeSnapshot_office (c.config i)
        { n with lastApplied := next, applying := none } data
      exact .stay hterm hrole hid
    · exact .stay rfl rfl rfl
  | @stallApply i data n up idle behind ends =>
    rw [up.node]
    obtain ⟨hterm, hrole, hid⟩ := maybeSnapshot_office (c.config i) n data
    exact .stay hterm hrole hid
  | skipVote up | startReplicate up | abandonReplicate up | wakePropose up | beginApply up =>
    rw [up.node]
    exact .stay rfl rfl rfl

/-! ## What has happened -/

/-- What can be said of the leaders of a run without stops, whatever `leaderId_` names. -/
structure History (c : Cluster) (tr : List (State × Event)) (s : State) : Prop where
  leader : ∀ i, (s.node i).role = .Leader → Led c tr i (s.node i).currentTerm
  past : ∀ i t, Led c tr i t →
    t < (s.node i).currentTerm ∨ t = (s.node i).currentTerm ∧ (s.node i).role = .Leader
  packets : ∀ (src dst : String) (id : Nat) (req : AppendEntriesRequest),
    ⟨src, dst, id, .appendRequest req⟩ ∈ s.network → req.leaderId = src ∧ Led c tr src req.term

theorem history_init (c : Cluster) : History c [] State.init where
  leader := fun _ h => absurd h (by simp [State.init])
  past := fun _ _ ⟨_, h, _⟩ => absurd h (by simp)
  packets := fun _ _ _ _ h => absurd h (by simp [State.init])

/-- A step that enters `BecomeLeader` leaves a leader of that term. -/
theorem Does.enters {act : Action} {e : Effect} (h : Does c s act e) {x : String} {t : Nat}
    (hl : (Event.act act).EntersBecomeLeader c s x t) :
    x = e.actor ∧ t = e.node.currentTerm ∧ e.node.role = .Leader := by
  obtain ⟨heq | ⟨k, heq⟩, call, hopen, hwins, hterm⟩ := hl
  · cases heq
    cases h with
    | @finishElection _ n call' up open' pending =>
      rw [up.node] at hopen hwins hterm
      obtain rfl : call = call' := Option.some.inj (hopen.symm.trans open')
      simp only [RaftNode.finishElection, hwins, if_true]
      exact ⟨trivial, hterm.symm, rfl⟩
  · exact absurd heq (by simp)

/-- A leader's request carries its id and its term; nothing else is sent that looks like
    one. -/
theorem Does.sent_append {act : Action} {e : Effect} (h : Does c s act e) {src dst : String}
    {id : Nat} {req : AppendEntriesRequest} (hmem : ⟨src, dst, id, .appendRequest req⟩ ∈ e.sent) :
    req.leaderId = src ∧ req.term = (s.node src).currentTerm ∧ (s.node src).role = .Leader := by
  cases h with
  | @startReplicate i peer n up idle role peer_mem =>
    rw [List.mem_singleton] at hmem
    cases hmem
    rw [up.node]
    exact ⟨rfl, rfl, role⟩
  | startElection =>
    obtain ⟨p, -, hp⟩ := List.mem_map.mp hmem
    exact absurd hp (by simp)
  | handleRequestVote | handleAppendEntries => exact absurd hmem (by simp)
  | recvVote | skipVote | finishElection | finishReplicate | abandonReplicate | propose
  | wakePropose | beginApply | endApply | stallApply => exact absurd hmem (by simp)

namespace History

variable (h : History c tr s)
include h

theorem act {act : Action} {e : Effect} (hd : Does c s act e)
    (hnode : s'.node = Function.update s.node e.actor e.node)
    (hnet : s'.network = e.network ++ e.sent) :
    History c (tr ++ [(s, .act act)]) s' := by
  have hself : s'.node e.actor = e.node := by rw [hnode, Function.update_self]
  have hother : ∀ j, j ≠ e.actor → s'.node j = s.node j := fun j hj => by
    rw [hnode, Function.update_of_ne hj]
  refine ⟨fun i hr => ?_, fun i t hl => ?_, fun src dst id req hmem => ?_⟩
  · by_cases hi : i = e.actor
    · subst hi
      rw [hself] at hr ⊢
      cases hd.turn with
      | stay term role leaderId =>
        rw [term]
        exact (h.leader _ (role.symm.trans hr)).mono _
      | rise told term role leaderId => exact absurd hr role
      | lead enters term role leaderId =>
        rw [term]
        exact led_append.mpr (Or.inr enters)
      | @follow src id req pkt term role leaderId =>
        rcases role with ⟨heq, role⟩ | ⟨-, role⟩
        · rw [term, ← heq]
          exact (h.leader _ (role.symm.trans hr)).mono _
        · rw [role] at hr
          exact absurd hr (by simp)
    · rw [hother i hi] at hr ⊢
      exact (h.leader i hr).mono _
  · rcases led_append.mp hl with hl | hl
    · have hpast := h.past i t hl
      by_cases hi : i = e.actor
      · subst hi
        rw [hself]
        cases hd.turn with
        | stay term role leaderId =>
          rw [term, role]
          exact hpast
        | rise told term role leaderId => exact Or.inl (by omega)
        | lead enters term role leaderId =>
          rw [term]
          exact hpast.imp_right fun hp => ⟨hp.1, role⟩
        | @follow src id req pkt term role leaderId =>
          rw [term]
          rcases role with ⟨heq, role⟩ | ⟨hlt, -⟩
          · rw [← heq, role]
            exact hpast
          · exact Or.inl (by omega)
      · rw [hother i hi]
        exact hpast
    · obtain ⟨rfl, rfl, hr⟩ := hd.enters hl
      rw [hself]
      exact Or.inr ⟨rfl, hr⟩
  · rw [hnet] at hmem
    rcases List.mem_append.mp hmem with hmem | hmem
    · obtain ⟨hid, hl⟩ := h.packets src dst id req (hd.network_subset _ hmem)
      exact ⟨hid, hl.mono _⟩
    · obtain ⟨hid, hterm, hr⟩ := hd.sent_append hmem
      refine ⟨hid, ?_⟩
      rw [hterm]
      exact (h.leader src hr).mono _

theorem step {ev : Event} (hlive : ev.NoStop) (hstep : ev.step c s = some s') :
    History c (tr ++ [(s, ev)]) s' := by
  cases stepped hstep with
  | act hd => exact h.act hd rfl rfl
  | @drop k =>
    refine ⟨fun i hr => (h.leader i hr).mono _, fun i t hl => ?_, fun src dst id req hmem => ?_⟩
    · rcases led_append.mp hl with hl | ⟨hev, -⟩
      · exact h.past i t hl
      · exact absurd hev (by simp)
    · obtain ⟨hid, hl⟩ := h.packets src dst id req
        ((List.eraseIdx_sublist s.network k).subset hmem)
      exact ⟨hid, hl.mono _⟩
  | stop | stopDuring | restart | stopDuringRestart => exact hlive.elim

end History

theorem history_run {P : State → Event → Prop} (hP : ∀ s ev, P s ev → ev.NoStop)
    (run : Runs (Event.step c) P State.init tr s) : History c tr s :=
  run.history (fun _ _ _ _ h ok hstep => h.step (hP _ _ ok) hstep) (history_init c)

/-! ## What `leaderId_` says -/

/-- Every node names nobody, or the leader of its term. -/
def NamesLeader (c : Cluster) (tr : List (State × Event)) (s : State) : Prop :=
  ∀ i, (s.node i).leaderId ≠ "" → Led c tr (s.node i).leaderId (s.node i).currentTerm

theorem NamesLeader.act (hn : NamesLeader c tr s) (h : History c tr s) {act : Action} {e : Effect}
    (hd : Does c s act e) (hnode : s'.node = Function.update s.node e.actor e.node)
    (hunled : (Event.act act).Unled s) : NamesLeader c (tr ++ [(s, .act act)]) s' := by
  intro i hid
  by_cases hi : i = e.actor
  · subst hi
    rw [hnode, Function.update_self] at hid ⊢
    cases hd.turn with
    | stay term role leaderId =>
      rw [leaderId] at hid ⊢
      rw [term]
      exact (hn _ hid).mono _
    | rise told term role leaderId =>
      rw [leaderId] at hid
      exact absurd (hunled _ told term) hid
    | lead enters term role leaderId =>
      rw [leaderId, term]
      exact led_append.mpr (Or.inr enters)
    | @follow src id req pkt term role leaderId =>
      obtain ⟨hsrc, hl⟩ := h.packets src _ id req pkt
      rw [leaderId, hsrc, term]
      exact hl.mono _
  · rw [hnode, Function.update_of_ne hi] at hid ⊢
    exact (hn i hid).mono _

theorem NamesLeader.step (hn : NamesLeader c tr s) (h : History c tr s) {ev : Event}
    (hlive : ev.NoStop) (hunled : ev.Unled s) (hstep : ev.step c s = some s') :
    NamesLeader c (tr ++ [(s, ev)]) s' := by
  cases stepped hstep with
  | act hd => exact hn.act h hd rfl hunled
  | drop => exact fun i hid => (hn i hid).mono _
  | stop | stopDuring | restart | stopDuringRestart => exact hlive.elim

/-- **The advertised leader.** In a run without stops in which a node is told of a later term
    by its leader or while its `leaderId_` is empty, every `leaderId_` is empty or names the one
    node that became leader in the node's term, and only a leader names itself. -/
theorem leaderId_names_leader (hc : c.FullMesh)
    (run : Runs (Event.step c) (fun s ev => ev.NoStop ∧ ev.Unled s) State.init tr s)
    (hi : i ∈ c.ids) :
    ((s.node i).leaderId ≠ "" →
      Led c tr (s.node i).leaderId (s.node i).currentTerm ∧
      ∀ x, Led c tr x (s.node i).currentTerm → x = (s.node i).leaderId) ∧
    ((s.node i).role ≠ .Leader → (s.node i).leaderId ≠ i) := by
  obtain ⟨h, hn⟩ : History c tr s ∧ NamesLeader c tr s :=
    run.history (I := fun tr s => History c tr s ∧ NamesLeader c tr s)
      (fun _ _ _ _ h ok hstep => ⟨h.1.step ok.1 hstep, h.2.step h.1 ok.1 ok.2 hstep⟩)
      ⟨history_init c, fun _ h => absurd rfl h⟩
  refine ⟨fun hid => ⟨hn i hid, fun x ⟨q, hq, hx⟩ => ?_⟩, fun hr hself => ?_⟩
  · obtain ⟨p, hp, hlead⟩ := hn i hid
    exact one_leader hc run hq hp hx hlead
  · have hl := hn i (by rw [hself]; exact hc.nonempty i hi)
    rw [hself] at hl
    rcases h.past i _ hl with hlt | ⟨-, hlead⟩
    · exact absurd hlt (Nat.lt_irrefl _)
    · exact hr hlead

/-- `A` leads term 1 and `B` has heard of it. -/
theorem leaderId_names_leader_three : ∃ tr s,
    Runs (Event.step three) (fun s ev => ev.NoStop ∧ ev.Unled s) State.init tr s ∧
    (s.node "B").leaderId = "A" ∧ Led three tr "A" (s.node "B").currentTerm := by
  obtain ⟨s, hs, h⟩ := (Option.any_eq_true _ _).mp
    (show (exec (Event.step three) (fun s ev => ev.NoStop ∧ ev.Unled s) State.init
        (standA ++ [.act (.finishElection "A"), .act (.startReplicate "A" "B"),
          .act (.deliver 0)])).any (fun s => (s.node "B").leaderId = "A") = true
      by decide +kernel)
  have hid := of_decide_eq_true h
  have run := runs_of_exec hs
  have hnames := (leaderId_names_leader three_fullMesh run (i := "B") (by decide)).1
    (by rw [hid]; decide)
  rw [hid] at hnames
  exact ⟨_, s, run, hid, hnames.1⟩

/-- `A` leads term 1 when `B` stands in term 2. `A` steps down, and from then on answers with
    itself. -/
theorem leaderId_names_leader_fails : ∃ tr s,
    Runs (Event.step three) (fun _ ev => ev.NoStop) State.init tr s ∧
    (s.node "A").role = .Follower ∧ (s.node "A").leaderId = "A" ∧
    ¬Led three tr "A" (s.node "A").currentTerm := by
  obtain ⟨s, hs, h⟩ := (Option.any_eq_true _ _).mp
    (show (exec (Event.step three) (fun _ ev => ev.NoStop) State.init
        (standA ++ [.act (.finishElection "A"), .act (.startElection "B"),
          .act (.deliver 0)])).any (fun s =>
        decide ((s.node "A").role = .Follower) && decide ((s.node "A").leaderId = "A")) = true
      by decide +kernel)
  simp only [Bool.and_eq_true, decide_eq_true_eq] at h
  have run := runs_of_exec hs
  refine ⟨_, s, run, h.1, h.2, fun hl => ?_⟩
  rcases (history_run (fun _ _ ok => ok) run).past "A" _ hl with hlt | ⟨-, hr⟩
  · exact absurd hlt (Nat.lt_irrefl _)
  · rw [h.1] at hr
    exact absurd hr (by simp)

end Proof
end OrcDb
