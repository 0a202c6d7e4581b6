import OrcDb.Lib.Run
import OrcDb.Proof.Network.Pipeline

/-!
# Closing a connection

A connection from the accept on, event by event, until `IoLoop` closes it. The state remembers
whether anything has happened that excuses a close with responses unsent: the peer closed its
side, a `recv` or `send` failed, or `epoll` reported an error or a hang-up.

`markedClose` has two readings. Behind a failure it means that there is nobody to write to;
behind a request that asks to close it means that the connection ends once the response is
out. The `EPOLLIN` branch of `IoLoop` knows only the first: it closes at once, with the
response it has just queued still in the buffer. So the promise is kept exactly as long as no
such request is completed (`sends_iff`).
-/

set_option autoImplicit false

namespace OrcDb
namespace Proof

open Lib

/-! ## A connection and its events -/

structure Link (σ : Type) where
  /-- The state the handlers work on. -/
  state : σ
  conn : TcpConnection := {}
  closed : Bool := false
  /-- Something has happened that excuses a close with responses unsent. -/
  excused : Bool := false

def Recv.fails : Recv → Bool
  | .closed => true
  | .failed => true
  | _ => false

def Sent.fails : Sent → Bool
  | .failed => true
  | _ => false

/-- The event excuses a close. -/
def excuses (ev : EpollEvent) : Bool :=
  ev.errOrHup || ev.recvs.any Recv.fails || ev.sents.any Sent.fails

variable {σ : Type} (order : MapOrder) (handler : RequestHandler σ)

/-- `IoLoop` handles an event; a closed connection has none. -/
def Link.step (l : Link σ) (ev : EpollEvent) : Option (Link σ) :=
  if l.closed then none
  else (ioEvent order handler l.state l.conn ev).map fun r =>
    { state := r.1, conn := r.2.1, closed := r.2.2, excused := l.excused || excuses ev }

/-- If the connection is closed, every response was sent or the close is excused. -/
def Link.Sends (l : Link σ) : Prop :=
  l.closed = true → l.conn.writeBuf = [] ∨ l.excused = true

/-- The requests a parser completes when it is fed what `recv` returns. -/
def completed (order : MapOrder) (p : HttpParser) : List Recv → List HttpRequest
  | .data bytes :: rest =>
      match p.feed order bytes with
      | none => []
      | some fed =>
          if fed.2 = .Complete then
            fed.1.takeRequest.1 :: completed order fed.1.takeRequest.2 rest
          else completed order fed.1 rest
  | _ => []

/-- Unless a close is excused, no request that the event completes asks to close. -/
def Link.Spares (l : Link σ) (ev : EpollEvent) : Prop :=
  l.excused = false → excuses ev = false → ev.epollIn = true →
    ∀ r ∈ completed order l.conn.parser ev.recvs, r.isKeepAlive = true

instance Link.decidableSpares (l : Link σ) (ev : EpollEvent) : Decidable (l.Spares order ev) :=
  inferInstanceAs (Decidable (l.excused = false → excuses ev = false → ev.epollIn = true →
    ∀ r ∈ completed order l.conn.parser ev.recvs, r.isKeepAlive = true))

/-! ## What a read and a write do -/

theorem answer_markedClose (s : σ) (conn : TcpConnection) (p : HttpParser) :
    (answer handler s conn p).2.markedClose = true ↔
      conn.markedClose = true ∨ p.takeRequest.1.isKeepAlive = false := by
  unfold answer
  cases conn.markedClose <;> simp [TcpConnection.queueWrite]

theorem answer_writeBuf (s : σ) (conn : TcpConnection) (p : HttpParser) :
    (answer handler s conn p).2.writeBuf ≠ [] := by
  intro h
  have hlen := congrArg List.length h
  simp only [answer, TcpConnection.queueWrite, List.length_append, List.length_nil] at hlen
  have := serialise_nonempty (handler s p.takeRequest.1).1
    (p.takeRequest.1.isKeepAlive && !conn.markedClose)
  omega

/-- A read that meets no failure marks the connection exactly if a request asks to close, and
    a request that is completed leaves its response in the buffer. -/
theorem handleRead_quiet {s s' : σ} {conn conn' : TcpConnection} {recvs : List Recv}
    (h : handleRead order handler s conn recvs = some (s', conn'))
    (hquiet : recvs.any Recv.fails = false) :
    (conn'.markedClose = true ↔ conn.markedClose = true ∨
        ∃ r ∈ completed order conn.parser recvs, r.isKeepAlive = false) ∧
      (conn.writeBuf ≠ [] ∨ completed order conn.parser recvs ≠ [] → conn'.writeBuf ≠ []) := by
  induction recvs generalizing s conn with
  | nil => exact absurd h (by simp [handleRead])
  | cons r recvs ih =>
    rw [List.any_cons, Bool.or_eq_false_iff] at hquiet
    cases r with
    | closed => exact absurd hquiet.1 (by simp [Recv.fails])
    | failed => exact absurd hquiet.1 (by simp [Recv.fails])
    | again =>
      cases recvs with
      | nil =>
        cases h
        simp [completed]
      | cons r' recvs => exact absurd h (by simp [handleRead])
    | data bytes =>
      rw [handleRead] at h
      obtain ⟨fed, hfed, h⟩ := Option.bind_eq_some_iff.mp h
      rw [completed, hfed]
      simp only
      split at h
      · rename_i hcomplete
        obtain ⟨hmarked, hpending⟩ := ih h hquiet.2
        have hparser : (answer handler s conn fed.1).2.parser = fed.1.takeRequest.2 := rfl
        rw [if_pos hcomplete]
        rw [answer_markedClose, hparser] at hmarked
        refine ⟨?_, fun _ => hpending (Or.inl (answer_writeBuf handler s conn fed.1))⟩
        rw [hmarked]
        simp [or_assoc]
      · rename_i hcomplete
        rw [if_neg hcomplete]
        exact ih h hquiet.2

theorem handleWrite_quiet {conn conn' : TcpConnection} {sents : List Sent}
    (h : handleWrite conn sents = some conn') (hquiet : sents.any Sent.fails = false) :
    conn'.markedClose = conn.markedClose := by
  induction sents generalizing conn with
  | nil =>
    simp only [handleWrite, Option.ite_none_right_eq_some, Option.some.injEq] at h
    rw [h.2]
  | cons r sents ih =>
    rw [List.any_cons, Bool.or_eq_false_iff] at hquiet
    cases r with
    | took n =>
      rw [handleWrite, Option.ite_none_right_eq_some] at h
      have hrest := ih h.2 hquiet.2
      exact hrest
    | again =>
      cases sents with
      | nil =>
        simp only [handleWrite, Option.ite_none_left_eq_some, Option.some.injEq] at h
        rw [h.2]
      | cons r' sents => exact absurd h (by simp [handleWrite])
    | failed => exact absurd hquiet.1 (by simp [Sent.fails])

/-! ## One event -/

variable {order} {handler}

/-- The connection after the `EPOLLIN` part of an event that excuses nothing. -/
theorem ioRead_quiet {s s' : σ} {conn conn' : TcpConnection} {ev : EpollEvent}
    (h : ioRead order handler s conn ev = some (s', conn'))
    (hquiet : ev.recvs.any Recv.fails = false)
    (hopen : conn.markedClose = false) :
    (conn'.markedClose = true ↔ ev.epollIn = true ∧
        ∃ r ∈ completed order conn.parser ev.recvs, r.isKeepAlive = false) ∧
      (conn'.markedClose = true → conn'.writeBuf ≠ []) := by
  unfold ioRead at h
  cases hin : ev.epollIn with
  | false =>
    rw [hin] at h
    simp only [Bool.false_eq_true, if_false, Option.ite_none_right_eq_some] at h
    cases h.2
    simp [hopen]
  | true =>
    rw [hin, if_pos rfl] at h
    obtain ⟨hmarked, hpending⟩ := handleRead_quiet order handler h hquiet
    simp only [hopen, Bool.false_eq_true, false_or] at hmarked
    refine ⟨hmarked.trans (by simp), fun hclose => hpending (Or.inr ?_)⟩
    obtain ⟨r, hr, _⟩ := hmarked.mp hclose
    exact List.ne_nil_of_mem hr

/-- The `EPOLLOUT` part closes only what is sent, if the `EPOLLIN` part did not decide. -/
theorem ioWrite_spec {conn conn' : TcpConnection} {ev : EpollEvent} {shouldClose close : Bool}
    (h : ioWrite conn shouldClose ev = some (conn', close)) :
    (shouldClose = true → conn' = conn ∧ close = true) ∧
      (shouldClose = false → close = true → conn'.writeBuf = []) ∧
      (ev.sents.any Sent.fails = false → conn'.markedClose = conn.markedClose) := by
  unfold ioWrite at h
  split at h
  · rename_i hout
    obtain ⟨written, hwrite, hw⟩ := Option.map_eq_some_iff.mp h
    cases hw
    refine ⟨fun hclose => ?_, fun _ hclose => ?_, fun hquiet => handleWrite_quiet hwrite hquiet⟩
    · rw [hclose] at hout
      exact absurd hout (by simp)
    · simpa [TcpConnection.hasPendingWrite] using (Bool.and_eq_true_iff.mp hclose).2
  · rw [Option.ite_none_right_eq_some] at h
    cases h.2
    refine ⟨fun hclose => ⟨rfl, hclose⟩, fun hno hclose => ?_, fun _ => rfl⟩
    rw [hno] at hclose
    exact absurd hclose (by simp)

theorem excuses_eq_false {ev : EpollEvent} : excuses ev = false ↔
    ev.errOrHup = false ∧ ev.recvs.any Recv.fails = false ∧ ev.sents.any Sent.fails = false := by
  simp [excuses, and_assoc]

/-- A connection that is open and unmarked as long as nothing is excused. -/
def Link.Unmarked (l : Link σ) : Prop :=
  l.closed = false → l.excused = false → l.conn.markedClose = false

/-- An event keeps the promise exactly if it spares the connection. -/
theorem Link.step_sends {l l' : Link σ} {ev : EpollEvent} (hunmarked : l.Unmarked)
    (hstep : l.step order handler ev = some l') :
    (l.Spares order ev ↔ l'.Sends) ∧ (l.Spares order ev → l'.Unmarked) := by
  unfold Link.step at hstep
  rw [Option.ite_none_left_eq_some] at hstep
  obtain ⟨hclosed, hstep⟩ := hstep
  obtain ⟨⟨s', conn', close⟩, hio, rfl⟩ := Option.map_eq_some_iff.mp hstep
  by_cases hexcused : (l.excused || excuses ev) = true
  · -- The close is excused, whatever the event does.
    have hspares : l.Spares order ev := by
      intro hno hquiet
      rw [hno, hquiet] at hexcused
      exact absurd hexcused (by simp)
    exact ⟨⟨fun _ _ => Or.inr hexcused, fun _ => hspares⟩,
      fun _ _ hno => absurd (hexcused.symm.trans hno) (by simp)⟩
  · rw [Bool.not_eq_true] at hexcused hclosed
    obtain ⟨hno, hquiet⟩ := Bool.or_eq_false_iff.mp hexcused
    obtain ⟨herr, hrecvs, hsents⟩ := excuses_eq_false.mp hquiet
    unfold ioEvent at hio
    rw [herr, if_neg (by simp)] at hio
    obtain ⟨⟨s₁, conn₁⟩, hread, hio⟩ := Option.bind_eq_some_iff.mp hio
    obtain ⟨⟨conn₂, close₂⟩, hwrite, heq⟩ := Option.map_eq_some_iff.mp hio
    cases heq
    obtain ⟨hmarked, hpending⟩ := ioRead_quiet hread hrecvs (hunmarked hclosed hno)
    obtain ⟨hdecided, hsent, hkept⟩ := ioWrite_spec hwrite
    have hspares : l.Spares order ev ↔ conn₁.markedClose = false := by
      rw [← Bool.not_eq_true, hmarked]
      simp [Link.Spares, hno, hquiet]
    have hshould : conn₁.markedClose = false → (ev.epollIn && conn₁.markedClose) = false := by
      intro h
      simp [h]
    constructor
    · rw [hspares]
      constructor
      · intro hfalse hclose
        exact Or.inl (hsent (hshould hfalse) hclose)
      · intro hsends
        by_contra hclose
        rw [Bool.not_eq_false] at hclose
        obtain ⟨hsame, hclosed'⟩ := hdecided (by simp [hclose, (hmarked.mp hclose).1])
        rcases hsends hclosed' with hempty | hyes
        · exact hpending hclose ((congrArg TcpConnection.writeBuf hsame).symm.trans hempty)
        · exact absurd (hyes.symm.trans hexcused) (by simp)
    · intro hspare _ _
      exact (hkept hsents).trans (hspares.mp hspare)

/-- **Responses are sent before a close, exactly as long as no request asks for it.** In every
    run of events on a connection, no close leaves responses unsent without excuse if and only
    if no event completes a request that asks to close. -/
theorem sends_iff (order : MapOrder) (handler : RequestHandler σ) (s : σ)
    {tr : List (Link σ × EpollEvent)} {l : Link σ}
    (run : Runs (Link.step order handler) (fun _ _ => True) { state := s } tr l) :
    ((∀ p ∈ tr, p.1.Sends) ∧ l.Sends) ↔ ∀ p ∈ tr, p.1.Spares order p.2 := by
  refine run.exact (I := Link.Unmarked) (C := Link.Spares order) ?_ ?_ ?_
  · intro l ev l' hunmarked _ _ hstep
    exact Link.step_sends hunmarked hstep
  · exact fun _ _ => rfl
  · exact fun hclosed => absurd hclosed (by simp)

/-- A request without `Connection: close` is answered, the response is sent, and the peer
    closes. -/
def keptOpen : List EpollEvent :=
  [{ epollIn := true, recvs := [.data healthMessage.wire, .again] },
    { epollOut := true, sents := [.took (HttpResponse.noContent.serialise true).length] },
    { epollIn := true, recvs := [.closed] }]

theorem sends_keptOpen : ∃ tr l,
    Runs (Link.step .newestFirst countingHandler) (fun _ _ => True) { state := 0 } tr l ∧
      l.state = 1 ∧
      l.closed = true ∧ (∀ p ∈ tr, p.1.Sends) ∧ l.Sends := by
  obtain ⟨l, hl, h⟩ := (Option.any_eq_true _ _).mp
    (show (exec (Link.step .newestFirst countingHandler) (fun _ _ => True) { state := 0 }
      keptOpen).any
      (fun l => decide (l.state = 1 ∧ l.closed = true)) = true by decide +kernel)
  have hspares : ∀ p ∈ traceOf (Link.step .newestFirst countingHandler) { state := 0 } keptOpen,
      p.1.Spares .newestFirst p.2 := by decide +kernel
  have run := runs_of_exec hl
  obtain ⟨hstate, hclosed⟩ := of_decide_eq_true h
  exact ⟨_, l, run, hstate, hclosed, (sends_iff .newestFirst countingHandler 0 run).mpr hspares⟩

/-- An HTTP/1.0 request without keep-alive. -/
def asksToClose : List EpollEvent :=
  [{ epollIn := true, recvs := [.data (toBytes "GET / HTTP/1.0\r\n\r\n"), .again] }]

/-- **A response that is never sent**: the request is answered into the buffer, and the branch
    that read it closes the connection. -/
theorem sends_fails : ∃ tr l,
    Runs (Link.step .newestFirst countingHandler) (fun _ _ => True) { state := 0 } tr l ∧
      l.state = 1 ∧
      ¬l.Sends := by
  obtain ⟨l, hl, h⟩ := (Option.any_eq_true _ _).mp
    (show (exec (Link.step .newestFirst countingHandler) (fun _ _ => True) { state := 0 }
      asksToClose).any
      (fun l => decide (l.state = 1 ∧ l.closed = true ∧ l.conn.writeBuf ≠ [] ∧ l.excused = false))
        = true by decide +kernel)
  obtain ⟨hstate, hclosed, hpending, hexcused⟩ := of_decide_eq_true h
  refine ⟨_, l, runs_of_exec hl, hstate, fun hsends => ?_⟩
  rcases hsends hclosed with hempty | hyes
  · exact hpending hempty
  · exact absurd (hyes.symm.trans hexcused) (by simp)

end Proof
end OrcDb
