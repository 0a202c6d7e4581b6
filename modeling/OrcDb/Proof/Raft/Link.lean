import OrcDb.Proof.Raft.Ledger

/-!
# A call gets the answer to its own request

Requests and responses travel as bytes, calls overlap, `RecvLoop` matches frames to promises by
sequence number alone, and timed-out calls leave their promises behind. Still, as long as the
sequence numbers do not come round and every frame is shorter than `2^32` bytes (`LinkFits`), the
value of a call's future is what the handler of the other node returned for this call's request
(`call_answered`), and no request is handled twice (`handled_once`).
-/

set_option autoImplicit false

namespace OrcDb
namespace Proof

open Lib
open RaftRpcServer (Conn dispatch)

variable {J : Json.Codec} {l l' : RpcLink} {k : Nat} {m m' : RpcMessage} {f q : RpcFrame}

/-! ## Receiving -/

section Receive

variable {g : Ledger} {owner : UInt32 → Nat} {n : Nat}

/-- Where a value comes from that is there after some frames have been taken. -/
theorem resolve_foldl (fs : List RpcFrame) {pending : List UInt32} {inner : Nat → Promise Bytes}
    {payload : Bytes}
    (h : (fs.foldl (RpcLink.resolve owner) (pending, inner)).2 k = some (.ok payload)) :
    inner k = some (.ok payload) ∨
      ∃ f ∈ fs, f.seq ∈ pending ∧ owner f.seq = k ∧ f.payload = payload := by
  induction fs generalizing pending inner with
  | nil => exact .inl h
  | cons f fs ih =>
    rw [List.foldl_cons] at h
    by_cases hf : f.seq ∈ pending
    · rw [RpcLink.resolve, if_pos hf] at h
      rcases ih h with hold | ⟨f', hf', hp, hk, hpay⟩
      · by_cases hk : k = owner f.seq
        · subst hk
          rw [Function.update_self, Option.some.injEq, Except.ok.injEq] at hold
          exact .inr ⟨f, List.mem_cons_self, hf, rfl, hold⟩
        · rw [Function.update_of_ne hk] at hold
          exact .inl hold
      · exact .inr ⟨f', List.mem_cons_of_mem _ hf', List.mem_of_mem_erase hp, hk, hpay⟩
    · rw [RpcLink.resolve, if_neg hf] at h
      rcases ih h with hold | ⟨f', hf', rest⟩
      · exact .inl hold
      · exact .inr ⟨f', List.mem_cons_of_mem _ hf', rest⟩

theorem mem_of_mem_foldl_erase (fs : List RpcFrame) {pending : List UInt32} {seq : UInt32}
    (h : seq ∈ fs.foldl (fun pending f => pending.erase f.seq) pending) : seq ∈ pending := by
  induction fs generalizing pending with
  | nil => exact h
  | cons f fs ih => exact List.mem_of_mem_erase (ih h)

theorem Books.framable (h : Books J l g) : ∀ f ∈ g.back.map Prod.snd, Framable f := by
  intro f hf
  obtain ⟨x, hx, rfl⟩ := List.mem_map.mp hf
  obtain ⟨q, hq⟩ := h.back x hx
  obtain ⟨_, _, _, _, _, _, _, _, hok⟩ := h.done _ hq
  exact hok

/-- Below `2^32` a key tells the number of its call. -/
theorem eq_of_ofNat_eq {a b : Nat} (ha : a < 2 ^ 32) (hb : b < 2 ^ 32)
    (h : UInt32.ofNat a = UInt32.ofNat b) : a = b := by
  have := congrArg UInt32.toNat h
  rw [UInt32.toNat_ofNat', UInt32.toNat_ofNat', Nat.mod_eq_of_lt ha, Nat.mod_eq_of_lt hb] at this
  exact this

/-- The promise a response is given to is the one of its own call. -/
theorem LinkOk.owner_eq (h : LinkOk J l g) {x : Nat × RpcFrame} (hx : x ∈ g.back)
    (hp : x.2.seq ∈ l.peer.pending) : l.owner x.2.seq = x.1 := by
  obtain ⟨q, hq⟩ := h.books.back x hx
  obtain ⟨node, hans⟩ := h.books.done _ hq
  have hlt := hans.lt
  obtain ⟨m, m', node', -, -, -, hf, -⟩ := hans
  obtain ⟨hlt', hkey⟩ := h.numbering.pending _ hp
  have hseq : x.2.seq = UInt32.ofNat x.1 := frame_seq hf
  have hfew := h.numbering.few
  rw [hseq] at hkey hlt' ⊢
  exact eq_of_ofNat_eq (Nat.lt_of_lt_of_le hlt' hfew) (Nat.lt_of_lt_of_le hlt hfew) hkey

theorem LinkOk.recv (h : LinkOk J l g) (hstep : l.recv n = some l') :
    ∃ g', LinkOk J l' g' ∧ g'.done = g.done ∧ l'.requests = l.requests := by
  unfold RpcLink.recv at hstep
  dsimp only at hstep
  split at hstep
  swap
  · exact absurd hstep (by simp)
  obtain ⟨p', hp, rfl⟩ := Option.map_eq_some_iff.mp hstep
  obtain ⟨t, out, ht, hfeed, rfl⟩ := step_data hp
  have hN := h.numbering
  have hB := h.books
  -- the frames that are taken are the first ones of the column
  obtain ⟨frames, hdrain, rfl⟩ := Option.map_eq_some_iff.mp hfeed
  have hstream : (t.buf ++ l.toPeer.take n) ++ (l.toPeer.drop n ++ g.lostBack) =
      ((g.back.map Prod.snd).map frameBytes).flatten := by
    rw [← List.append_assoc, List.append_assoc t.buf, List.take_append_drop]
    exact h.streams.reading t ht
  obtain ⟨ys, zs, r, hsplit, hdrain', hrest, -⟩ :=
    rpcFrame_delimits.drain hB.framable hstream (Nat.lt_succ_self _)
  obtain rfl : (ys, r) = frames := Option.some.inj (hdrain'.symm.trans hdrain)
  obtain ⟨taken, left, hback, rfl, rfl⟩ := List.map_eq_append_iff.mp hsplit
  have hframes : l.framesOf (l.toPeer.take n) = taken.map Prod.snd := by
    unfold RpcLink.framesOf
    rw [ht]
    simp only [hfeed, Option.map_some, Option.getD_some, List.nil_append]
  refine ⟨{ g with back := left }, ⟨⟨hN.few, hN.frames, hN.seqGen, hN.calls, hN.callers,
      fun seq hs => hN.pending seq (mem_of_mem_foldl_erase _ hs)⟩,
    { h.streams with
      reading := fun t' ht' => ?_
      unread := fun hf => (h.streams.thread ht hf).elim },
    { hB with back := fun x hx => hB.back x (by rw [hback]; exact List.mem_append_right _ hx) },
    ⟨fun k payload hin => ?_, h.promises.outcome⟩⟩, rfl, rfl⟩
  · obtain rfl := Option.some.inj ht'
    show r ++ l.toPeer.drop n ++ g.lostBack = _
    rw [List.append_assoc]
    exact hrest
  · simp only [hframes] at hin
    rcases resolve_foldl _ hin with hold | ⟨f, hf, hpend, rfl, rfl⟩
    · exact h.promises.inner k payload hold
    · obtain ⟨x, hx, rfl⟩ := List.mem_map.mp hf
      have hx : x ∈ g.back := by
        rw [hback]
        exact List.mem_append_left _ hx
      rw [h.owner_eq hx hpend]
      obtain ⟨q, hq⟩ := hB.back x hx
      exact ⟨q, x.2, hq, rfl⟩

end Receive

/-! ## The server -/

section Serve

variable {g g' : Ledger} {n : Nat} {part : Option Nat}

theorem LinkOk.arrive (h : LinkOk J l g) (hstep : l.arrive n = some l') : LinkOk J l' g := by
  unfold RpcLink.arrive at hstep
  split at hstep
  swap
  · exact absurd hstep (by simp)
  obtain rfl := Option.some.inj hstep
  refine ⟨{ h.numbering with }, { h.streams with toServer := ?_ }, { h.books with },
    { h.promises with }⟩
  show l.conn.buf ++ l.toServer.take n ++ l.toServer.drop n ++ g.lostOut = _
  rw [List.append_assoc l.conn.buf, List.take_append_drop]
  exact h.streams.toServer

/-- A step that is not a response leaves the handled calls as they are; a response adds the
    call whose frame is in front, with what the handler says now. -/
def Grown (J : Json.Codec) (l : RpcLink) (ev : LinkEvent) (g g' : Ledger) : Prop :=
  g'.done = g.done ∨ ∃ x part n, ev = .handle part ∧ g'.done = g.done ++ [x] ∧
    RpcFrame.decode l.conn.buf = .item x.2.1 n ∧ Answered J l.requests l.conn.node x

/-- The frame in front of the server's buffer is the oldest of its column. -/
theorem LinkOk.front (h : LinkOk J l g) (hread : RpcFrame.decode l.conn.buf = .item q n) :
    ∃ k out, g.out = (k, q) :: out ∧ Asks J l.requests k q ∧
      l.conn.buf.drop n ++ l.toServer ++ g.lostOut = bytesOf out := by
  have hok : ∀ f ∈ g.out.map Prod.snd, Framable f := by
    intro f hf
    obtain ⟨x, hx, rfl⟩ := List.mem_map.mp hf
    obtain ⟨_, _, _, _, hok⟩ := h.books.out x hx
    exact hok
  have hstream := h.streams.toServer
  rw [List.append_assoc] at hstream
  obtain ⟨ys, hys, hrest⟩ := rpcFrame_delimits.read_item hok hstream hread
  obtain ⟨x, out, hout, rfl, rfl⟩ := List.map_eq_cons_iff.mp hys
  refine ⟨x.1, out, hout, h.books.out x (by rw [hout]; exact List.mem_cons_self), ?_⟩
  rw [List.append_assoc]
  exact hrest

/-- What becomes of the bytes of a response: they go out, or a part of them is lost. -/
theorem answerBytes_lost (h : Streams l g) (bytes : Bytes) (part : Option Nat) :
    ∃ lost, (∀ front : Bytes, front ++ (l.toPeer ++ l.answerBytes bytes part) ++ lost =
      front ++ l.toPeer ++ g.lostBack ++ bytes) ∧
      (lost = [] ∨ (l.severed || part.isSome) = true) := by
  cases hsev : l.severed with
  | true =>
    refine ⟨g.lostBack ++ bytes, fun front => ?_, .inr rfl⟩
    simp [RpcLink.answerBytes, hsev]
  | false =>
    have hlost : g.lostBack = [] := h.lostBack.resolve_right (by rw [hsev]; exact Bool.noConfusion)
    cases part with
    | none =>
      refine ⟨[], fun front => ?_, .inl rfl⟩
      simp [RpcLink.answerBytes, hsev, hlost]
    | some n =>
      refine ⟨bytes.drop n, fun front => ?_, .inr rfl⟩
      simp [RpcLink.answerBytes, hsev, hlost]

theorem Books.served {out : List (Nat × RpcFrame)} (h : Books J l g)
    (hout : g.out = (k, q) :: out) (f : RpcFrame) :
    (l.callers ++ (out.map Prod.fst ++ (g.done ++ [(k, q, f)]).map Prod.fst)).Nodup := by
  have hperm : (g.out.map Prod.fst ++ g.done.map Prod.fst).Perm
      (out.map Prod.fst ++ (g.done ++ [(k, q, f)]).map Prod.fst) := by
    rw [hout, List.map_cons, List.map_append, List.map_singleton, List.cons_append,
      ← List.append_assoc]
    exact (List.perm_append_singleton _ _).symm
  exact (hperm.append_left _).nodup_iff.mp h.apart

theorem LinkOk.handle (h : LinkOk J l g) (hfits : LinkFits J l (.handle part))
    (hstep : l.handle J part = some l') :
    ∃ g', LinkOk J l' g' ∧ Grown J l (.handle part) g g' ∧ l'.requests = l.requests := by
  unfold RpcLink.handle at hstep
  split at hstep
  swap
  · exact absurd hstep (by simp)
  have hstays : ∀ inLoop closed : Bool, LinkOk J { l with inLoop, closed } g := fun _ _ =>
    ⟨{ h.numbering with }, { h.streams with }, { h.books with }, { h.promises with }⟩
  cases hread : RpcFrame.decode l.conn.buf with
  | more =>
    rw [hread] at hstep
    obtain rfl := Option.some.inj hstep
    exact ⟨g, hstays false l.closed, .inl rfl, rfl⟩
  | bad =>
    rw [hread] at hstep
    obtain rfl := Option.some.inj hstep
    exact ⟨g, hstays l.inLoop true, .inl rfl, rfl⟩
  | item req n =>
    obtain ⟨k, out, hout, ⟨m, hm, hreq, hf, hok⟩, hrest⟩ := h.front hread
    rw [hread] at hstep
    dsimp only at hstep
    rcases hdispatch : dispatch J l.conn.node req with _ | out
    · -- the handler has thrown
      rw [hdispatch] at hstep
      obtain rfl := Option.some.inj hstep
      exact ⟨g, hstays l.inLoop true, .inl rfl, rfl⟩
    obtain ⟨node', m', f, hans, hf', rfl⟩ := dispatch_frame hreq hf hdispatch
    have hframable : Framable f := by
      have hfits := hfits
      simp only [LinkFits, hread, ResponseFits] at hfits
      exact hfits _ hdispatch f rfl
    rw [hdispatch] at hstep
    dsimp only at hstep
    rw [encode_eq hframable, Option.map_some, Option.some.injEq] at hstep
    subst hstep
    have hnow : Answered J l.requests l.conn.node (k, req, f) :=
      ⟨m, m', node', hm, hf, hans, hf', hframable⟩
    obtain ⟨lost, hlost, hsev⟩ := answerBytes_lost h.streams (frameBytes f) part
    have hmono : ∀ x ∈ g.done, x ∈ g.done ++ [(k, req, f)] := fun x => List.mem_append_left _
    have hB := h.books
    let g' : Ledger := { g with
      out := out
      done := g.done ++ [(k, req, f)]
      back := g.back ++ [(k, f)]
      lostBack := lost }
    refine ⟨g', ⟨{ h.numbering with }, ?_, ?_, ?_⟩,
      .inr ⟨(k, req, f), part, n, rfl, rfl, hread, hnow⟩, rfl⟩
    · refine { h.streams with
        toServer := hrest
        reading := fun t ht => ?_
        unread := fun hf => ⟨(h.streams.unread hf).1, ?_⟩
        lostBack := hsev }
      · rw [hlost, h.streams.reading t ht, bytesOf_concat]
      · have hnone := hlost []
        rw [List.nil_append, List.nil_append, (h.streams.unread hf).2] at hnone
        rw [bytesOf_concat]
        exact hnone
    · refine ⟨fun x hx => hB.out x (by rw [hout]; exact List.mem_cons_of_mem _ hx), fun x hx => ?_,
        ?_, fun x hx => ?_, hB.served hout f⟩
      · rcases List.mem_append.mp hx with hx | hx
        · exact hB.done x hx
        · rw [List.mem_singleton.mp hx]
          exact ⟨_, hnow⟩
      · show l.conn.handled ++ _ = _
        rw [hB.handled, List.map_append, List.map_singleton]
      · rcases List.mem_append.mp hx with hx | hx
        · obtain ⟨q, hq⟩ := hB.back x hx
          exact ⟨q, hmono _ hq⟩
        · rw [List.mem_singleton.mp hx]
          exact ⟨req, List.mem_append_right _ List.mem_cons_self⟩
    · refine ⟨fun k payload hin => ?_, fun k m hout => ?_⟩
      · obtain ⟨q, f, hq, hpay⟩ := h.promises.inner k payload hin
        exact ⟨q, f, hmono _ hq, hpay⟩
      · obtain ⟨q, f, hq, hm⟩ := h.promises.outcome k m hout
        exact ⟨q, f, hmono _ hq, hm⟩

/-- **The step lemma.** -/
theorem LinkOk.step {ev : LinkEvent} (h : LinkOk J l g) (hfits : LinkFits J l ev)
    (hstep : l.step J ev = some l') :
    ∃ g', LinkOk J l' g' ∧ Grown J l ev g g' ∧ l.requests <+: l'.requests := by
  have hkeeps : LinkOk J l' g → l'.requests = l.requests →
      ∃ g', LinkOk J l' g' ∧ Grown J l ev g g' ∧ l.requests <+: l'.requests := fun h' hr =>
    ⟨g, h', .inl rfl, by rw [hr]⟩
  cases ev with
  | construct ok =>
    have h' := h.construct hstep
    obtain ⟨_, -, rfl⟩ := Option.map_eq_some_iff.mp hstep
    exact hkeeps h' rfl
  | call m =>
    obtain ⟨h', hgrow⟩ := h.call hfits hstep
    exact ⟨g, h', .inl rfl, hgrow⟩
  | connect caller ok =>
    have h' := h.connect hstep
    simp only [RpcLink.step, RpcLink.connect] at hstep
    split at hstep
    · obtain ⟨_, -, rfl⟩ := Option.map_eq_some_iff.mp hstep
      exact hkeeps h' rfl
    · exact absurd hstep (by simp)
  | spawn caller =>
    obtain ⟨p', hp, rfl⟩ := Option.map_eq_some_iff.mp hstep
    exact hkeeps (h.spawn hp) rfl
  | check caller =>
    have h' := h.check hstep
    simp only [RpcLink.step, RpcLink.check, Option.bind_eq_bind, Option.bind_eq_some_iff] at hstep
    obtain ⟨k, hk, c, hc, p', hp, hstep⟩ := hstep
    split at hstep <;> obtain rfl := Option.some.inj hstep <;> exact hkeeps h' rfl
  | send caller part =>
    obtain ⟨g', h', hdone, hr⟩ := h.send hstep
    exact ⟨g', h', .inl hdone, by rw [hr]⟩
  | loop =>
    obtain ⟨p', hp, rfl⟩ := Option.map_eq_some_iff.mp hstep
    exact hkeeps (h.loop hp) rfl
  | recv n =>
    obtain ⟨g', h', hdone, hr⟩ := h.recv hstep
    exact ⟨g', h', .inl hdone, by rw [hr]⟩
  | again =>
    obtain ⟨p', hp, rfl⟩ := Option.map_eq_some_iff.mp hstep
    exact hkeeps (h.again hp) rfl
  | lost =>
    have h' := h.lost hstep
    obtain ⟨_, -, rfl⟩ := Option.map_eq_some_iff.mp hstep
    exact hkeeps h' rfl
  | wait k timeout =>
    obtain ⟨h', hr⟩ := h.wait hstep
    exact hkeeps h' hr
  | arrive n =>
    have h' := h.arrive hstep
    simp only [RpcLink.step, RpcLink.arrive] at hstep
    split at hstep
    · obtain rfl := Option.some.inj hstep
      exact hkeeps h' rfl
    · exact absurd hstep (by simp)
  | handle part =>
    obtain ⟨g', h', hgrown, hr⟩ := h.handle hfits hstep
    exact ⟨g', h', hgrown, by rw [hr]⟩
  | hangUp =>
    simp only [RpcLink.step] at hstep
    split at hstep
    · exact absurd hstep (by simp)
    · obtain rfl := Option.some.inj hstep
      exact hkeeps ⟨{ h.numbering with }, { h.streams with }, { h.books with },
        { h.promises with }⟩ rfl
  | other node =>
    obtain rfl := Option.some.inj hstep
    exact hkeeps ⟨{ h.numbering with }, { h.streams with }, { h.books with },
      { h.promises with }⟩ rfl

end Serve

/-! ## Whole runs -/

/-- Every handled call was handled in a step of the run. -/
def Recorded (J : Json.Codec) (tr : List (RpcLink × LinkEvent)) (l : RpcLink) (g : Ledger) : Prop :=
  ∀ x ∈ g.done, ∃ l₁ part n, (l₁, LinkEvent.handle part) ∈ tr ∧
    RpcFrame.decode l₁.conn.buf = .item x.2.1 n ∧ Answered J l.requests l₁.conn.node x

theorem Recorded.step {tr : List (RpcLink × LinkEvent)} {ev : LinkEvent} {g g' : Ledger}
    (h : Recorded J tr l g) (hg : Grown J l ev g g') (hr : l.requests <+: l'.requests) :
    Recorded J (tr ++ [(l, ev)]) l' g' := by
  have hold : ∀ x ∈ g.done, ∃ l₁ part n, (l₁, LinkEvent.handle part) ∈ tr ++ [(l, ev)] ∧
      RpcFrame.decode l₁.conn.buf = .item x.2.1 n ∧ Answered J l'.requests l₁.conn.node x := by
    intro x hx
    obtain ⟨l₁, part, n, hmem, hread, hans⟩ := h x hx
    exact ⟨l₁, part, n, List.mem_append_left _ hmem, hread, hans.mono hr⟩
  intro x hx
  rcases hg with heq | ⟨y, part, n, rfl, heq, hread, hans⟩
  · rw [heq] at hx
    exact hold x hx
  · rw [heq] at hx
    rcases List.mem_append.mp hx with hx | hx
    · exact hold x hx
    · obtain rfl := List.mem_singleton.mp hx
      exact ⟨l, part, n, List.mem_append_right _ List.mem_cons_self, hread, hans.mono hr⟩

theorem linkOk_run {node : RaftNode} {tr : List (RpcLink × LinkEvent)}
    (run : LinkRun J { conn := { node } } tr l) : ∃ g, LinkOk J l g ∧ Recorded J tr l g := by
  refine run.history (I := fun tr l => ∃ g, LinkOk J l g ∧ Recorded J tr l g) ?_
    ⟨{}, linkOk_init J node, fun x hx => absurd hx (by simp)⟩
  rintro tr l ev l' ⟨g, h, hrec⟩ hfits hstep
  obtain ⟨g', h', hgrown, hr⟩ := h.step hfits hstep
  exact ⟨g', h', hrec.step hgrown hr⟩

/-- The keys of the handled requests are the numbers of their calls. -/
theorem LinkOk.handled_seqs {g : Ledger} (h : LinkOk J l g) :
    l.conn.handled.map (fun e => e.1.seq) = (g.done.map Prod.fst).map UInt32.ofNat := by
  rw [h.books.handled, List.map_map, List.map_map]
  apply List.map_congr_left
  intro x hx
  obtain ⟨node, m, m', node', -, hf, -⟩ := h.books.done x hx
  exact frame_seq hf

/-- Two calls that overlap; the second one is sent first, and the bytes come in pieces. -/
def overlapping : List LinkEvent :=
  [.construct true, .call (.requestVoteReq { term := 1, candidateId := "A" }),
    .call (.appendEntriesReq { term := 1, leaderId := "A" }), .check 0, .check 1, .send 1 none,
    .send 0 none, .arrive 20, .handle none, .arrive 158, .handle none, .handle none, .handle none,
    .loop, .recv 30, .loop, .recv 80, .wait 0 false, .wait 1 false]

theorem overlapping_run : ∃ tr l, LinkRun Json.text { conn := { node := {} } } tr l ∧
    l.conn.handled.length = 2 ∧
    l.outcome 0 = some (.ok (.requestVoteResp { term := 1, voteGranted := true })) := by
  obtain ⟨l, hl, h⟩ := (Option.any_eq_true _ _).mp
    (show (exec (RpcLink.step Json.text) (LinkFits Json.text) { conn := { node := {} } }
      overlapping).any (fun l => decide (l.conn.handled.length = 2 ∧ l.outcome 0 =
        some (.ok (.requestVoteResp { term := 1, voteGranted := true })))) = true by decide +kernel)
  exact ⟨_, l, runs_of_exec hl, of_decide_eq_true h⟩

/-- **No request is handled twice**, and what is handled is the request of a call, on a connection
    with at most `2^32` calls and with frames shorter than `2^32` bytes. -/
theorem handled_once {node : RaftNode} {tr : List (RpcLink × LinkEvent)}
    (run : LinkRun J { conn := { node } } tr l) :
    (l.conn.handled.map fun e => e.1.seq).Nodup ∧
      ∀ e ∈ l.conn.handled, ∃ (k : Nat) (m : RpcMessage), l.requests[k]? = some m ∧
        m.frame J (UInt32.ofNat k) = some e.1 := by
  obtain ⟨g, h, -⟩ := linkOk_run run
  refine ⟨?_, fun e he => ?_⟩
  · rw [h.handled_seqs]
    have hnodup : (g.done.map Prod.fst).Nodup :=
      (List.nodup_append.mp (List.nodup_append.mp h.books.apart).2.1).2.1
    refine List.Nodup.map_on (fun a ha b hb hab => ?_) hnodup
    have hlt : ∀ k ∈ g.done.map Prod.fst, k < 2 ^ 32 := by
      intro k hk
      obtain ⟨x, hx, rfl⟩ := List.mem_map.mp hk
      obtain ⟨node, hans⟩ := h.books.done x hx
      exact Nat.lt_of_lt_of_le hans.lt h.numbering.few
    exact eq_of_ofNat_eq (hlt a ha) (hlt b hb) hab
  · rw [h.books.handled] at he
    obtain ⟨x, hx, rfl⟩ := List.mem_map.mp he
    obtain ⟨node, m, m', node', hm, hf, -⟩ := h.books.done x hx
    exact ⟨x.1, m, hm, hf⟩

theorem handled_once_overlapping : ∃ tr l,
    LinkRun Json.text { conn := { node := {} } } tr l ∧ l.conn.handled.length = 2 ∧
    (l.conn.handled.map fun e => e.1.seq).Nodup ∧
      ∀ e ∈ l.conn.handled, ∃ (k : Nat) (m : RpcMessage), l.requests[k]? = some m ∧
        m.frame Json.text (UInt32.ofNat k) = some e.1 := by
  obtain ⟨tr, l, run, hlen, -⟩ := overlapping_run
  exact ⟨tr, l, run, hlen, handled_once run⟩

/-- **A call gets the answer to its own request**, on a connection with at most `2^32` calls and
    with frames shorter than `2^32` bytes: when the future of call `k` holds a value, there was a
    round of the server's loop in which the frame of this call's request was in front, and the
    value is what the handler returned for it on the node as it was then. -/
theorem call_answered {node : RaftNode} {tr : List (RpcLink × LinkEvent)}
    (run : LinkRun J { conn := { node } } tr l) (hout : l.outcome k = some (.ok m')) :
    ∃ m f l₁ part n node', l.requests[k]? = some m ∧ m.frame J (UInt32.ofNat k) = some f ∧
      (l₁, LinkEvent.handle part) ∈ tr ∧ RpcFrame.decode l₁.conn.buf = .item f n ∧
      l₁.conn.node.answer J m = some (node', m') := by
  obtain ⟨g, h, hrec⟩ := linkOk_run run
  obtain ⟨q, f, hdone, hm'⟩ := h.promises.outcome k m' hout
  obtain ⟨l₁, part, n, hmem, hread, m, m₁, node', hm, hf, hans, hf', -⟩ := hrec _ hdone
  have heq := ofFrame_frame hf'
  obtain rfl : m' = m₁ := Option.some.inj (hm'.symm.trans heq)
  exact ⟨m, q, l₁, part, n, node', hm, hf, hmem, hread, hans⟩

theorem call_answered_overlapping : ∃ tr l,
    LinkRun Json.text { conn := { node := {} } } tr l ∧
    l.outcome 0 = some (.ok (.requestVoteResp { term := 1, voteGranted := true })) ∧
    ∃ m f l₁ part n node', l.requests[0]? = some m ∧ m.frame Json.text (UInt32.ofNat 0) = some f ∧
      (l₁, LinkEvent.handle part) ∈ tr ∧ RpcFrame.decode l₁.conn.buf = .item f n ∧
      l₁.conn.node.answer Json.text m =
        some (node', .requestVoteResp { term := 1, voteGranted := true }) := by
  obtain ⟨tr, l, run, -, hout⟩ := overlapping_run
  exact ⟨tr, l, run, hout, call_answered run hout⟩

end Proof
end OrcDb
