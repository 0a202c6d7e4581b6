import OrcDb.Network.TcpServer
import OrcDb.Proof.Network.Message

/-!
# Pipelined requests

Requests arrive whole, several of them perhaps in one `recv`. `HandleRead` feeds what a `recv`
gave and takes at most one request out of the parser before it asks for more; `TakeRequest`
keeps the bytes behind the request, but nothing looks at them until the next bytes arrive. So
the requests form a queue to which a `recv` adds a group and from which it takes one
(`handleRead_queue`), and when the socket is drained as many have been answered as there were
`recv`s.
-/

set_option autoImplicit false

namespace OrcDb
namespace Proof

open Lib HttpParser

variable {σ : Type} (order : MapOrder) (handler : RequestHandler σ)

/-- The responses of the handler to requests in order. -/
def replies (s : σ) : List HttpRequest → List HttpResponse
  | [] => []
  | r :: rs => (handler s r).1 :: replies (handler s r).2 rs

/-- What they put into the write buffer of a connection that is kept. -/
def replyBytes (s : σ) (ms : List Request) : Bytes :=
  (replies handler s (ms.map (Request.request · order))).flatMap (HttpResponse.serialise · true)

/-- Requests arriving on a connection, those of one `recv` together. None asks to close. -/
structure Arrival (order : MapOrder) where
  groups : List (List Request)
  nonempty : ∀ g ∈ groups, g ≠ []
  keeps : ∀ m ∈ groups.flatten, (m.request order).isKeepAlive = true

def wires (ms : List Request) : Bytes := ms.flatMap Request.wire

/-- What `recv` returns until the socket is drained. -/
def Arrival.recvs {order : MapOrder} (a : Arrival order) : List Recv :=
  a.groups.map (fun g => Recv.data (wires g)) ++ [.again]

/-- Once the socket is drained the response to every request has been queued, in order. -/
def AllAnswered (s : σ) (queued : Bytes) (a : Arrival order) : Prop :=
  ∃ s' conn, handleRead order handler s { writeBuf := queued } a.recvs = some (s', conn) ∧
    conn.writeBuf = queued ++ replyBytes order handler s a.groups.flatten

/-! ## The queue -/

theorem replies_take (s : σ) (rs : List HttpRequest) (n : Nat) :
    replies handler s (rs.take n) = (replies handler s rs).take n := by
  induction rs generalizing s n with
  | nil => simp [replies]
  | cons r rs ih =>
    cases n with
    | zero => rfl
    | succ n => simp [replies, ih]

theorem replies_length (s : σ) (rs : List HttpRequest) :
    (replies handler s rs).length = rs.length := by
  induction rs generalizing s with
  | nil => rfl
  | cons r rs ih => simp [replies, ih]

/-- The parser with requests waiting in its buffer takes the first of them. -/
theorem feed_queue (m : Request) (ms : List Request) {b c : Bytes}
    (h : b ++ c = wires (m :: ms)) :
    HttpParser.feed order { buffer := b } c = some (parsed order m (wires ms), .Complete) := by
  have hfeed := feed_wire m order (wires ms)
  rw [HttpParser.feed, List.nil_append] at hfeed
  rw [HttpParser.feed, h]
  exact hfeed

theorem answer_parsed (s : σ) {conn : TcpConnection} (hopen : conn.markedClose = false)
    (m : Request) (hkeeps : (m.request order).isKeepAlive = true) (rest : Bytes) :
    answer handler s conn (parsed order m rest) =
      ((handler s (m.request order)).2,
        { parser := { buffer := rest }
          writeBuf := conn.writeBuf ++ (handler s (m.request order)).1.serialise true
          markedClose := false }) := by
  unfold answer
  simp [parsed, takeRequest, reset, TcpConnection.queueWrite, hkeeps, hopen]

/-- A `recv` adds its group to the queue and takes one request off. -/
theorem handleRead_queue (s : σ) (queued : Bytes) (waiting : List Request)
    (groups : List (List Request)) (hne : ∀ g ∈ groups, g ≠ [])
    (hkeeps : ∀ m ∈ waiting ++ groups.flatten, (m.request order).isKeepAlive = true) :
    ∃ s' conn, handleRead order handler s
        { parser := { buffer := wires waiting }, writeBuf := queued }
        (groups.map (fun g => Recv.data (wires g)) ++ [.again]) = some (s', conn) ∧
      conn.writeBuf =
        queued ++ replyBytes order handler s ((waiting ++ groups.flatten).take groups.length) := by
  induction groups generalizing s queued waiting with
  | nil => exact ⟨s, _, rfl, by simp [replyBytes, replies]⟩
  | cons g groups ih =>
    have hg : waiting ++ g ≠ [] := by
      intro h
      exact hne g List.mem_cons_self (List.append_eq_nil_iff.mp h).2
    obtain ⟨m, ms, hqueue⟩ := List.exists_cons_of_ne_nil hg
    have hwires : wires waiting ++ wires g = wires (m :: ms) := by
      rw [← hqueue]
      simp [wires]
    have hall : waiting ++ (g :: groups).flatten = m :: (ms ++ groups.flatten) := by
      rw [List.flatten_cons, ← List.append_assoc, hqueue, List.cons_append]
    rw [hall] at hkeeps ⊢
    obtain ⟨s', conn, hread, hbuf⟩ := ih (handler s (m.request order)).2
      (queued ++ (handler s (m.request order)).1.serialise true) ms
      (fun g' hg' => hne g' (List.mem_cons_of_mem _ hg'))
      (fun m' hm' => hkeeps m' (List.mem_cons_of_mem _ hm'))
    refine ⟨s', conn, ?_, ?_⟩
    · rw [List.map_cons, List.cons_append, handleRead, feed_queue order m ms hwires]
      simp only [Option.bind_some, if_true]
      rw [answer_parsed order handler s rfl m (hkeeps m List.mem_cons_self)]
      exact hread
    · rw [hbuf]
      simp [replyBytes, replies]

/-! ## How many are answered -/

theorem serialise_nonempty (r : HttpResponse) (keepAlive : Bool) :
    0 < (r.serialise keepAlive).length := by
  have hhead : 0 < (toBytes "HTTP/1.1 ").length := by decide +kernel
  simp only [HttpResponse.serialise, List.length_append]
  omega

/-- The bytes tell whether an answer is missing. -/
theorem replyBytes_take {s : σ} {ms : List Request} {n : Nat}
    (h : replyBytes order handler s (ms.take n) = replyBytes order handler s ms) :
    ms.length ≤ n := by
  by_contra hlt
  have hsplit : replies handler s (ms.map (Request.request · order)) =
      replies handler s ((ms.take n).map (Request.request · order)) ++
        (replies handler s (ms.map (Request.request · order))).drop n := by
    rw [List.map_take, replies_take, List.take_append_drop]
  have hrest : ((replies handler s (ms.map (Request.request · order))).drop n).flatMap
      (HttpResponse.serialise · true) = [] := by
    unfold replyBytes at h
    rw [hsplit, List.flatMap_append] at h
    exact List.self_eq_append_right.mp h
  cases hdrop : (replies handler s (ms.map (Request.request · order))).drop n with
  | nil =>
    have := List.drop_eq_nil_iff.mp hdrop
    rw [replies_length, List.length_map] at this
    omega
  | cons r rs =>
    rw [hdrop, List.flatMap_cons] at hrest
    have := serialise_nonempty r true
    rw [(List.append_eq_nil_iff.mp hrest).1] at this
    exact absurd this (by simp)

theorem length_le_flatten {groups : List (List Request)} (hne : ∀ g ∈ groups, g ≠ []) :
    groups.length ≤ groups.flatten.length := by
  induction groups with
  | nil => simp
  | cons g groups ih =>
    have hg := List.length_pos_iff.mpr (hne g List.mem_cons_self)
    have := ih (fun g' hg' => hne g' (List.mem_cons_of_mem _ hg'))
    simp only [List.length_cons, List.flatten_cons, List.length_append]
    omega

/-- Groups that are not empty make no more requests than groups only if each is one. -/
theorem flatten_length_le_iff {groups : List (List Request)} (hne : ∀ g ∈ groups, g ≠ []) :
    groups.flatten.length ≤ groups.length ↔ ∀ g ∈ groups, g.length = 1 := by
  induction groups with
  | nil => simp
  | cons g groups ih =>
    have hne' : ∀ g ∈ groups, g ≠ [] := fun g' hg' => hne g' (List.mem_cons_of_mem _ hg')
    have hg := List.length_pos_iff.mpr (hne g List.mem_cons_self)
    have hrest := length_le_flatten hne'
    have hiff := ih hne'
    rw [List.forall_mem_cons, ← hiff]
    simp only [List.length_cons, List.flatten_cons, List.length_append]
    omega

/-- Every request is answered exactly if every `recv` brings just one. -/
theorem allAnswered_iff (order : MapOrder) (handler : RequestHandler σ) (s : σ) (queued : Bytes)
    (a : Arrival order) :
    AllAnswered order handler s queued a ↔ ∀ g ∈ a.groups, g.length = 1 := by
  obtain ⟨s', conn, hread, hbuf⟩ :=
    handleRead_queue order handler s queued [] a.groups a.nonempty a.keeps
  rw [← flatten_length_le_iff a.nonempty]
  constructor
  · rintro ⟨s'', conn', hread', hbuf'⟩
    have hsame : some (s', conn) = some (s'', conn') := hread.symm.trans hread'
    cases hsame
    rw [hbuf, List.append_cancel_left_eq] at hbuf'
    exact replyBytes_take order handler hbuf'
  · intro hlen
    refine ⟨s', conn, hread, ?_⟩
    rw [hbuf, List.nil_append, List.take_of_length_le hlen]

/-- Two requests in one `recv`. -/
def twoHealths : Arrival .newestFirst where
  groups := [[healthMessage.toRequest, healthMessage.toRequest]]
  nonempty := by decide +kernel
  keeps := by decide +kernel

/-- A handler that counts what it replies. -/
def countingHandler : RequestHandler Nat := fun n _ => (.noContent, n + 1)

/-- The first request is answered and the second stays in the parser's buffer. -/
theorem allAnswered_fails : ¬AllAnswered .newestFirst countingHandler 0 [] twoHealths := by
  rintro ⟨n, conn, hread, hbuf⟩
  have hone : (handleRead .newestFirst countingHandler 0 {} twoHealths.recvs).map
      (fun r => r.2.writeBuf) ≠
      some (replyBytes .newestFirst countingHandler 0 twoHealths.groups.flatten) := by
    decide +kernel
  rw [hread] at hone
  exact hone (congrArg some hbuf)

end Proof
end OrcDb
