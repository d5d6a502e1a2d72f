import Mathlib.Logic.Function.Basic
import KinVfs.Lib.Frames
import KinVfs.Lib.Runs
import KinVfs.Core.Protocol

/-!
# Connections of threads and processes (`client.rs` of the shim, `framing.rs` and `server.rs` of the daemon)

Every thread keeps one connection (`CLIENT`) and exchanges frames on it, one round trip after the other;
the daemon's handler of a connection answers frames in order. Writes and reads move some bytes at a
time, and both sides may fail after any byte: the client then drops the connection.

A byte of a request carries the round trip that wrote it, a byte of a response the request payload it
answers. A fork copies `CLIENT`, so parent and child write and read on one connection; where no thread
forks that holds a connection, what a round trip receives was made for what it sent
(`answers_belong`).
-/

namespace KinVfs

open Frames

/-- A byte of a request, with the round trip that wrote it. -/
abbrev Sent := UInt8 × Nat

/-- A byte of a response, with the payload it answers. -/
abbrev Received := UInt8 × List Sent

structure Connection where
  /-- Written by clients, not yet taken by the handler. -/
  up : List Sent
  /-- Written by the handler, not yet read. -/
  down : List Received
  /-- The handler runs. -/
  served : Bool
  deriving DecidableEq

/-- A round trip of a thread. -/
structure Exchange where
  conn : Nat
  /-- The connection is not for `CLIENT`: an announcement or a bypass report has one of its own. -/
  own : Bool
  /-- The payload of the call. -/
  request : Bytes
  /-- The payload of this round trip: an announcement that goes before the request, or the request. -/
  payload : Bytes
  announcing : Bool
  trip : Nat
  deriving DecidableEq

/-- Where a thread is in `with_client`. -/
inductive ClientPc where
  | idle
  | connecting (own : Bool) (request : Bytes)
  | sending (e : Exchange) (unsent : Bytes)
  | receiving (e : Exchange) (got : List Received)
  deriving DecidableEq

structure ClientThread where
  /-- `CLIENT`. -/
  client : Option Nat
  pc : ClientPc
  deriving DecidableEq

/-- A response that a round trip received: the round trip, its payload, and the frame. -/
structure TripAnswer where
  trip : Nat
  payload : Bytes
  frame : List Received
  deriving DecidableEq

/-- The threads of all processes and their connections. The answers are history. -/
structure Transport where
  conns : Nat → Connection
  /-- The number of connections opened so far. -/
  opened : Nat
  threads : Nat → ClientThread
  trips : Nat
  answers : List TripAnswer

inductive TransportLabel where
  /-- A call, with the announcement that goes before it when the connection it has is used. -/
  | call (t : Nat) (own : Bool) (request : Bytes) (announce : Option Bytes)
  | connect (t : Nat) (announce : Option Bytes)
  /-- No attempt is left. -/
  | giveUp (t : Nat)
  | write (t n : Nat)
  | read (t n : Nat)
  /-- A failure or a timeout, a frame over the bound, or a payload that is not a response. -/
  | lose (t : Nat)
  /-- The response is whole: the one the call asks for, or another one. -/
  | finish (t : Nat) (expected : Bool)
  /-- `CLIENT` is for another socket, or the thread ends. -/
  | drop (t : Nat)
  /-- The handler answers a frame; it may stop after some bytes of the response. -/
  | serve (c : Nat) (response : Bytes) (stopped : Option Nat)
  | hangUp (c : Nat)
  /-- The forking thread goes on in the child. -/
  | fork (t child : Nat)
  deriving DecidableEq

namespace Transport

/-- No thread has a connection. -/
def init : Transport := ⟨fun _ => ⟨[], [], true⟩, 0, fun _ => ⟨none, .idle⟩, 0, []⟩

def setThread (s : Transport) (t : Nat) (th : ClientThread) : Transport :=
  { s with threads := Function.update s.threads t th }

def setConn (s : Transport) (c : Nat) (k : Connection) : Transport :=
  { s with conns := Function.update s.conns c k }

@[simp] theorem setConn_self (s : Transport) (c : Nat) (k : Connection) :
    (s.setConn c k).conns c = k :=
  Function.update_self ..

theorem setConn_of_ne (s : Transport) {c c' : Nat} (k : Connection) (h : c' ≠ c) :
    (s.setConn c k).conns c' = s.conns c' :=
  Function.update_of_ne h ..

/-- Begin the round trips of an attempt on connection `c`. -/
def exchange (s : Transport) (t c : Nat) (own : Bool) (request : Bytes) (announce : Option Bytes) :
    Transport :=
  let payload := announce.getD request
  { s.setThread t ⟨(s.threads t).client,
      .sending ⟨c, own, request, payload, announce.isSome, s.trips⟩ (frame payload)⟩ with
    trips := s.trips + 1 }

/-- The connection of the exchange is gone. `with_client` connects again. -/
def loseConn (s : Transport) (t : Nat) (e : Exchange) : Transport :=
  if e.own then s.setThread t ⟨(s.threads t).client, .idle⟩
  else s.setThread t ⟨none, .connecting false e.request⟩

@[simp] def step (s : Transport) : TransportLabel → Option Transport
  | .call t own request announce =>
    match (s.threads t).pc, own, (s.threads t).client with
    | .idle, false, some c => some (s.exchange t c false request announce)
    | .idle, _, _ => some (s.setThread t ⟨(s.threads t).client, .connecting own request⟩)
    | _, _, _ => none
  | .connect t announce =>
    match (s.threads t).pc with
    | .connecting own request =>
      some ({ s.setConn s.opened ⟨[], [], true⟩ with opened := s.opened + 1 }.exchange t s.opened own
        request announce)
    | _ => none
  | .giveUp t =>
    match (s.threads t).pc with
    | .connecting _ _ => some (s.setThread t ⟨(s.threads t).client, .idle⟩)
    | _ => none
  | .write t n =>
    match (s.threads t).pc with
    | .sending e unsent =>
      if n = 0 ∨ unsent.length < n then none
      else
        let k := s.conns e.conn
        let pc := if n = unsent.length then .receiving e [] else .sending e (unsent.drop n)
        some ((s.setConn e.conn { k with up := k.up ++ (unsent.take n).map (·, e.trip) }).setThread t
          ⟨(s.threads t).client, pc⟩)
    | _ => none
  | .read t n =>
    match (s.threads t).pc with
    | .receiving e got =>
      let k := s.conns e.conn
      if n = 0 ∨ wanted Prod.fst maxFrameBytes got < n ∨ k.down.length < n then none
      else some ((s.setConn e.conn { k with down := k.down.drop n }).setThread t
        ⟨(s.threads t).client, .receiving e (got ++ k.down.take n)⟩)
    | _ => none
  | .lose t =>
    match (s.threads t).pc with
    | .sending e _ | .receiving e _ => some (s.loseConn t e)
    | _ => none
  | .finish t expected =>
    match (s.threads t).pc with
    | .receiving e got =>
      match cut Prod.fst maxFrameBytes got with
      | some _ =>
        let s' : Transport := { s with answers := s.answers ++ [⟨e.trip, e.payload, got⟩] }
        if e.announcing then
          if expected then some (s'.exchange t e.conn e.own e.request none)
          else some (s'.loseConn t e)
        else if expected ∧ e.own = false then some (s'.setThread t ⟨some e.conn, .idle⟩)
        else some (s'.setThread t ⟨(s.threads t).client, .idle⟩)
      | none => none
    | _ => none
  | .drop t =>
    match (s.threads t).pc with
    | .idle => some (s.setThread t ⟨none, .idle⟩)
    | _ => none
  | .serve c response stopped =>
    let k := s.conns c
    if k.served then
      match cut Prod.fst maxFrameBytes k.up with
      | some (payload, rest) =>
        let written := (frame response).take (stopped.getD (frame response).length)
        some (s.setConn c ⟨rest, k.down ++ written.map (·, payload), stopped.isNone⟩)
      | none => none
    else none
  | .hangUp c => some (s.setConn c { s.conns c with served := false })
  | .fork t child =>
    if child ≠ t ∧ s.threads child = ⟨none, .idle⟩ then some (s.setThread child (s.threads t))
    else none

end Transport

/-- The payload of a round trip, byte by byte. -/
def tagged (payload : Bytes) (trip : Nat) : List Sent := payload.map (·, trip)

/-- The response was made for what the round trip sent. -/
def TripAnswer.Belongs (a : TripAnswer) : Prop :=
  ∃ response, a.frame = (Frames.frame response).map (·, tagged a.payload a.trip)

def AnswersBelong (s : Transport) : Prop := ∀ a ∈ s.answers, a.Belongs

def ClientPc.exchange : ClientPc → Option Exchange
  | .sending e _ | .receiving e _ => some e
  | .idle | .connecting _ _ => none

def ClientPc.conn (pc : ClientPc) : Option Nat := pc.exchange.map Exchange.conn

/-- The thread has the connection, in `CLIENT` or for a round trip. -/
def ClientThread.Holds (th : ClientThread) (c : Nat) : Prop :=
  th.client = some c ∨ th.pc.conn = some c

/-- A length that its four bytes can say. -/
def Short (payload : Bytes) : Prop := payload.length < 2 ^ 32

/-- A thread that forks holds no connection, and no payload reaches 4 GiB. -/
def Unshared (s : Transport) : TransportLabel → Prop
  | .call _ _ request announce => Short request ∧ ∀ payload ∈ announce, Short payload
  | .connect _ announce => ∀ payload ∈ announce, Short payload
  | .serve _ response _ => Short response
  | .fork t _ => ∀ c, ¬ (s.threads t).Holds c
  | _ => True

/-! ## The invariant -/

/-- What a thread knows of its connections. -/
def PcOk (conns : Nat → Connection) : ClientPc → Prop
  | .idle => True
  | .connecting _ request => Short request
  | .sending e unsent =>
    Short e.payload ∧ Short e.request ∧ unsent ≠ [] ∧
      (conns e.conn).up ++ tagged unsent e.trip = tagged (frame e.payload) e.trip ∧
      (conns e.conn).down = []
  | .receiving e got =>
    Short e.payload ∧ Short e.request ∧
      -- the frame is on its way, or it is answered, perhaps not to the end
      ((conns e.conn).up = tagged (frame e.payload) e.trip ∧ (conns e.conn).down = [] ∧ got = [] ∨
        (conns e.conn).up = [] ∧ ∃ response, Short response ∧
          got ++ (conns e.conn).down <+: (frame response).map (·, tagged e.payload e.trip))

/-- Nothing is on its way. -/
def Connection.Quiet (k : Connection) : Prop := k.up = [] ∧ k.down = []

structure ThreadOk (conns : Nat → Connection) (th : ClientThread) : Prop where
  pc : PcOk conns th.pc
  quiet : ∀ c, th.client = some c → th.pc.conn ≠ some c → (conns c).Quiet
  own : ∀ e, th.pc.exchange = some e → e.own = true → th.client ≠ some e.conn

/-- A connection has one user, and nothing is on its way between round trips. -/
structure Transport.Inv (s : Transport) : Prop where
  single : ∀ t t' c, (s.threads t).Holds c → (s.threads t').Holds c → t = t'
  opened : ∀ t c, (s.threads t).Holds c → c < s.opened
  thread : ∀ t, ThreadOk s.conns (s.threads t)
  belong : AnswersBelong s

/-- Only what is on its way on the connections of a thread matters to it. -/
theorem ThreadOk.congr {conns conns' : Nat → Connection} {th : ClientThread}
    (h : ThreadOk conns th)
    (hc : ∀ c, th.Holds c → (conns' c).up = (conns c).up ∧ (conns' c).down = (conns c).down) :
    ThreadOk conns' th where
  pc := by
    have hpc := h.pc
    cases hp : th.pc with
    | idle => trivial
    | connecting own request =>
      rw [hp] at hpc
      exact hpc
    | sending e unsent =>
      rw [hp] at hpc
      obtain ⟨hup, hdown⟩ := hc e.conn (.inr (by rw [hp]; rfl))
      simpa only [PcOk, hup, hdown] using hpc
    | receiving e got =>
      rw [hp] at hpc
      obtain ⟨hup, hdown⟩ := hc e.conn (.inr (by rw [hp]; rfl))
      simpa only [PcOk, hup, hdown] using hpc
  quiet := by
    intro c hclient hpc
    obtain ⟨hup, hdown⟩ := hc c (.inl hclient)
    rw [Connection.Quiet, hup, hdown]
    exact h.quiet c hclient hpc
  own := h.own

section Moves

variable {s : Transport} {t : Nat} {th : ClientThread} {conns : Nat → Connection}
  {opened trips : Nat} {answers : List TripAnswer}

/-- A step of thread `t` on its own connections, or on new ones. -/
theorem Transport.Inv.move (h : s.Inv) (hopened : s.opened ≤ opened)
    (hconns : ∀ c t', (s.threads t').Holds c → t' ≠ t → conns c = s.conns c)
    (hholds : ∀ c, th.Holds c → (s.threads t).Holds c ∨ s.opened ≤ c ∧ c < opened)
    (hth : ThreadOk conns th) (hanswers : ∀ a ∈ answers, a.Belongs) :
    Inv ⟨conns, opened, Function.update s.threads t th, trips, answers⟩ where
  single := by
    -- a connection of `t` is an old one of `t`, or nobody else has it yet
    have hother : ∀ t' c, t' ≠ t → th.Holds c → ¬ (s.threads t').Holds c := by
      intro t' c hne hc hc'
      rcases hholds c hc with hold | ⟨hnew, -⟩
      · exact hne (h.single t' t c hc' hold)
      · exact absurd (h.opened t' c hc') (Nat.not_lt.mpr hnew)
    intro t₁ t₂ c h₁ h₂
    by_cases e₁ : t₁ = t <;> by_cases e₂ : t₂ = t <;>
      simp only [Function.update_apply, e₁, e₂, if_true, if_false] at h₁ h₂
    · rw [e₁, e₂]
    · exact absurd h₂ (hother t₂ c e₂ h₁)
    · exact absurd h₁ (hother t₁ c e₁ h₂)
    · exact h.single t₁ t₂ c h₁ h₂
  opened := by
    intro t' c hc
    by_cases e : t' = t
    · simp only [Function.update_apply, e, if_true] at hc
      rcases hholds c hc with hold | ⟨-, hnew⟩
      · exact Nat.lt_of_lt_of_le (h.opened t c hold) hopened
      · exact hnew
    · simp only [Function.update_apply, e, if_false] at hc
      exact Nat.lt_of_lt_of_le (h.opened t' c hc) hopened
  thread := by
    intro t'
    by_cases e : t' = t
    · simpa only [Function.update_apply, e, if_true] using hth
    · simp only [Function.update_apply, e, if_false]
      refine (h.thread t').congr fun c hc => ?_
      rw [hconns c t' hc e]
      exact ⟨rfl, rfl⟩
  belong := hanswers

/-- A step of thread `t` that leaves the connections alone. -/
theorem Transport.Inv.moveThread (h : s.Inv)
    (hholds : ∀ c, th.Holds c → (s.threads t).Holds c) (hth : ThreadOk s.conns th)
    (hanswers : ∀ a ∈ answers, a.Belongs) :
    Inv ⟨s.conns, s.opened, Function.update s.threads t th, trips, answers⟩ :=
  h.move (Nat.le_refl _) (fun _ _ _ _ => rfl) (fun c hc => .inl (hholds c hc)) hth hanswers

/-- Begin round trips on a quiet connection that the thread has, or on a new one. -/
theorem Transport.Inv.exchange (h : s.Inv) {c : Nat} {own : Bool} {request : Bytes}
    {announce : Option Bytes} (hopened : s.opened ≤ opened)
    (hconns : ∀ c t', (s.threads t').Holds c → t' ≠ t → conns c = s.conns c)
    (hc : (s.threads t).Holds c ∨ s.opened ≤ c ∧ c < opened) (hquiet : (conns c).Quiet)
    (hclient : ∀ c', (s.threads t).client = some c' → c' ≠ c → (conns c').Quiet)
    (hown : own = true → (s.threads t).client ≠ some c)
    (hrequest : Short request) (hannounce : ∀ payload ∈ announce, Short payload)
    (hanswers : ∀ a ∈ answers, a.Belongs) :
    (Transport.exchange ⟨conns, opened, s.threads, trips, answers⟩ t c own request announce).Inv := by
  have hpayload : Short (announce.getD request) := by
    cases announce with
    | none => exact hrequest
    | some payload => exact hannounce payload rfl
  have hne : frame (announce.getD request) ≠ [] := by
    intro hnil
    have hlen := congrArg List.length hnil
    rw [length_frame] at hlen
    simp at hlen
  refine h.move hopened hconns ?_ ⟨⟨hpayload, hrequest, hne, ?_, hquiet.2⟩, ?_, ?_⟩ hanswers
  · rintro c' (hold | hnew)
    · exact .inl (.inl hold)
    · cases hnew
      exact hc
  · show (conns c).up ++ _ = _
    rw [hquiet.1, List.nil_append]
  · intro c' hold hne'
    refine hclient c' hold fun heq => hne' ?_
    rw [heq]
    rfl
  · intro e he howned
    cases he
    exact hown howned

/-- A round trip that goes on, with other bytes on its way. -/
theorem Transport.Inv.onConn (h : s.Inv) {e : Exchange} {k : Connection} {pc : ClientPc}
    (he : (s.threads t).pc.exchange = some e) (he' : pc.exchange = some e)
    (hpc : PcOk (s.setConn e.conn k).conns pc) :
    ((s.setConn e.conn k).setThread t ⟨(s.threads t).client, pc⟩).Inv := by
  have hheld : (s.threads t).Holds e.conn := .inr (by rw [ClientPc.conn, he]; rfl)
  have hconn : pc.conn = some e.conn := by rw [ClientPc.conn, he']; rfl
  refine h.move (Nat.le_refl _) ?_ ?_ ⟨hpc, ?_, ?_⟩ h.belong
  · intro c t' hc hne
    refine s.setConn_of_ne k fun heq => hne (h.single t' t c hc ?_)
    rwa [heq]
  · rintro c (hc | hc)
    · exact .inl (.inl hc)
    · rw [hconn] at hc
      cases hc
      exact .inl hheld
  · intro c hclient hne
    have hne' : c ≠ e.conn := fun heq => hne (by rw [hconn, heq])
    rw [s.setConn_of_ne k hne']
    refine (h.thread t).quiet c hclient ?_
    rw [ClientPc.conn, he]
    exact fun heq => hne' (by cases heq; rfl)
  · intro e' he''
    rw [he'] at he''
    cases he''
    exact (h.thread t).own e he

/-- Other bytes on their way on a connection. -/
theorem Transport.Inv.setConn (h : s.Inv) {c : Nat} {k : Connection}
    (hk : ∀ t, (s.threads t).Holds c → ThreadOk (s.setConn c k).conns (s.threads t)) :
    (s.setConn c k).Inv where
  single := h.single
  opened := h.opened
  thread := by
    intro t
    by_cases hc : (s.threads t).Holds c
    · exact hk t hc
    · refine (h.thread t).congr fun c' hc' => ?_
      have hne : c' ≠ c := by
        intro heq
        exact hc (heq ▸ hc')
      rw [s.setConn_of_ne k hne]
      exact ⟨rfl, rfl⟩
  belong := h.belong

/-- Leave a round trip with connections that the thread had, if they are quiet. -/
theorem Transport.Inv.settle (h : s.Inv) {client : Option Nat} {pc : ClientPc}
    (hnone : pc.exchange = none) (hpc : PcOk s.conns pc)
    (hclient : ∀ c, client = some c → (s.threads t).Holds c ∧ (s.conns c).Quiet)
    (hanswers : ∀ a ∈ answers, a.Belongs) :
    (Transport.setThread { s with answers := answers } t ⟨client, pc⟩).Inv := by
  refine h.moveThread (fun c hc => ?_) ⟨hpc, fun c hc _ => (hclient c hc).2, fun e he => ?_⟩ hanswers
  · rcases hc with hc | hc
    · exact (hclient c hc).1
    · rw [ClientPc.conn, hnone] at hc
      cases hc
  · rw [hnone] at he
    cases he

/-- Between round trips `CLIENT` is quiet. -/
theorem Transport.Inv.client_quiet (h : s.Inv) (hnone : (s.threads t).pc.exchange = none) (c : Nat)
    (hc : (s.threads t).client = some c) : (s.threads t).Holds c ∧ (s.conns c).Quiet := by
  refine ⟨.inl hc, (h.thread t).quiet c hc ?_⟩
  rw [ClientPc.conn, hnone]
  exact nofun

/-- Lose the connection of a round trip. -/
theorem Transport.Inv.loseConn (h : s.Inv) {e : Exchange} (hrequest : Short e.request)
    (he : (s.threads t).pc.exchange = some e) (hanswers : ∀ a ∈ answers, a.Belongs) :
    (Transport.loseConn { s with answers := answers } t e).Inv := by
  unfold Transport.loseConn
  split
  · rename_i howned
    refine h.settle rfl trivial (fun c hc => ⟨.inl hc, ?_⟩) hanswers
    refine (h.thread t).quiet c hc fun hpc => (h.thread t).own e he howned ?_
    rw [ClientPc.conn, he] at hpc
    cases hpc
    exact hc
  · exact h.settle rfl hrequest (fun c hc => nomatch hc) hanswers

end Moves

/-! ## Steps -/

namespace Transport

variable {s s' : Transport} {t c n : Nat}

theorem call_inv {own : Bool} {request : Bytes} {announce : Option Bytes} (h : s.Inv)
    (hrequest : Short request) (hannounce : ∀ payload ∈ announce, Short payload)
    (hstep : s.step (.call t own request announce) = some s') : s'.Inv := by
  simp only [step] at hstep
  split at hstep
  · rename_i c hpc hclient
    cases hstep
    have hquiet := h.client_quiet (by rw [hpc]; rfl)
    exact h.exchange (Nat.le_refl _) (fun _ _ _ _ => rfl) (.inl (.inl hclient)) (hquiet c hclient).2
      (fun c' hc' _ => (hquiet c' hc').2) nofun hrequest hannounce h.belong
  · rename_i hpc _
    cases hstep
    exact h.settle rfl hrequest (h.client_quiet (by rw [hpc]; rfl)) h.belong
  · cases hstep

theorem connect_inv {announce : Option Bytes} (h : s.Inv)
    (hannounce : ∀ payload ∈ announce, Short payload)
    (hstep : s.step (.connect t announce) = some s') : s'.Inv := by
  simp only [step] at hstep
  split at hstep
  · rename_i own request hpc
    cases hstep
    have hquiet := h.client_quiet (by rw [hpc]; rfl)
    have hrequest : Short request := by
      have hok := (h.thread t).pc
      rwa [hpc] at hok
    have hold : ∀ c t', (s.threads t').Holds c →
        (s.setConn s.opened ⟨[], [], true⟩).conns c = s.conns c := by
      intro c t' hc
      exact setConn_of_ne s _ (Nat.ne_of_lt (h.opened t' c hc))
    refine h.exchange (Nat.le_succ _) (fun c t' hc _ => hold c t' hc)
      (.inr ⟨Nat.le_refl _, Nat.lt_succ_self _⟩) ?_ ?_ ?_ hrequest hannounce h.belong
    · rw [setConn_self]
      exact ⟨rfl, rfl⟩
    · intro c' hc' _
      rw [hold c' t (.inl hc')]
      exact (hquiet c' hc').2
    · intro _ hc'
      exact absurd (h.opened t _ (.inl hc')) (Nat.lt_irrefl _)
  · cases hstep

theorem giveUp_inv (h : s.Inv) (hstep : s.step (.giveUp t) = some s') : s'.Inv := by
  simp only [step] at hstep
  split at hstep
  · rename_i hpc
    cases hstep
    exact h.settle rfl trivial (h.client_quiet (by rw [hpc]; rfl)) h.belong
  · cases hstep

theorem drop_inv (h : s.Inv) (hstep : s.step (.drop t) = some s') : s'.Inv := by
  simp only [step] at hstep
  split at hstep
  · cases hstep
    exact h.settle rfl trivial (fun c hc => nomatch hc) h.belong
  · cases hstep

theorem lose_inv (h : s.Inv) (hstep : s.step (.lose t) = some s') : s'.Inv := by
  have hok := (h.thread t).pc
  simp only [step] at hstep
  split at hstep
  · rename_i hpc
    cases hstep
    rw [hpc] at hok
    exact h.loseConn hok.2.1 (by rw [hpc]; rfl) h.belong
  · rename_i hpc
    cases hstep
    rw [hpc] at hok
    exact h.loseConn hok.2.1 (by rw [hpc]; rfl) h.belong
  · cases hstep

theorem fork_inv {child : Nat} (h : s.Inv) (hfree : ∀ c, ¬ (s.threads t).Holds c)
    (hstep : s.step (.fork t child) = some s') : s'.Inv := by
  simp only [step] at hstep
  split at hstep
  · cases hstep
    exact h.moveThread (fun c hc => absurd hc (hfree c)) (h.thread t) h.belong
  · cases hstep

theorem tagged_append (a b : Bytes) (trip : Nat) : tagged (a ++ b) trip = tagged a trip ++ tagged b trip :=
  List.map_append

theorem write_inv (h : s.Inv) (hstep : s.step (.write t n) = some s') : s'.Inv := by
  have hok := (h.thread t).pc
  simp only [step] at hstep
  split at hstep
  · rename_i e unsent hpc
    split at hstep
    · cases hstep
    · rename_i hn
      cases hstep
      rw [hpc] at hok
      obtain ⟨hpayload, hrequest, hne, hup, hdown⟩ := hok
      refine h.onConn (by rw [hpc]; rfl) (by split <;> rfl) ?_
      split
      · rename_i hall
        refine ⟨hpayload, hrequest, .inl ⟨?_, ?_, rfl⟩⟩
        · rw [setConn_self, List.take_of_length_le (Nat.le_of_eq hall.symm)]
          exact hup
        · rw [setConn_self]
          exact hdown
      · rename_i hall
        refine ⟨hpayload, hrequest, ?_, ?_, ?_⟩
        · intro hnil
          have hlen := List.drop_eq_nil_iff.mp hnil
          omega
        · rw [setConn_self]
          show (s.conns e.conn).up ++ tagged (unsent.take n) e.trip ++ tagged (unsent.drop n) e.trip = _
          rw [List.append_assoc, ← tagged_append, List.take_append_drop, hup]
        · rw [setConn_self]
          exact hdown
  · cases hstep

theorem read_inv (h : s.Inv) (hstep : s.step (.read t n) = some s') : s'.Inv := by
  have hok := (h.thread t).pc
  simp only [step] at hstep
  split at hstep
  · rename_i e got hpc
    split at hstep
    · cases hstep
    · rename_i hn
      cases hstep
      rw [hpc] at hok
      obtain ⟨hpayload, hrequest, hon⟩ := hok
      refine h.onConn (by rw [hpc]; rfl) rfl ⟨hpayload, hrequest, .inr ?_⟩
      rw [setConn_self]
      rcases hon with ⟨-, hdown, -⟩ | ⟨hup, response, hshort, hpart⟩
      · -- there was nothing to read
        rw [hdown, List.length_nil] at hn
        omega
      · refine ⟨hup, response, hshort, ?_⟩
        rw [List.append_assoc, List.take_append_drop]
        exact hpart
  · cases hstep

/-- A response that is whole is all of the response to this round trip. -/
theorem received_whole {conns : Nat → Connection} {e : Exchange} {got payload rest : List Received}
    (hok : PcOk conns (.receiving e got)) (hcut : cut Prod.fst maxFrameBytes got = some (payload, rest)) :
    (∃ response, got = (frame response).map (·, tagged e.payload e.trip)) ∧ (conns e.conn).Quiet := by
  obtain ⟨-, -, ⟨-, -, hnil⟩ | ⟨hup, response, hshort, hpart⟩⟩ := hok
  · rw [hnil] at hcut
    cases hcut
  · have hgot : got.map Prod.fst <+: frame response := by
      have hle := ((List.prefix_append got _).trans hpart).map Prod.fst
      rwa [List.map_map, show Prod.fst ∘ (·, tagged e.payload e.trip) = id from rfl, List.map_id] at hle
    obtain ⟨hwhole, -, -⟩ := cut_part hshort hgot hcut
    have hlen : got.length = (frame response).length := by rw [← hwhole, List.length_map]
    have hall : got = (frame response).map (·, tagged e.payload e.trip) :=
      ((List.prefix_append got _).trans hpart).eq_of_length (by rw [hlen, List.length_map])
    refine ⟨⟨response, hall⟩, hup, ?_⟩
    have hle := hpart.length_le
    rw [List.length_append, List.length_map, ← hlen] at hle
    exact List.length_eq_zero_iff.mp (by omega)

theorem finish_inv {expected : Bool} (h : s.Inv)
    (hstep : s.step (.finish t expected) = some s') : s'.Inv := by
  have hok := (h.thread t).pc
  simp only [step] at hstep
  split at hstep
  · rename_i e got hpc
    split at hstep
    · rename_i p hcut
      rw [hpc] at hok
      have he : (s.threads t).pc.exchange = some e := by rw [hpc]; rfl
      have hheld : (s.threads t).Holds e.conn := .inr (by rw [ClientPc.conn, he]; rfl)
      obtain ⟨hwhole, hquiet⟩ := received_whole hok hcut
      have hclient : ∀ c, (s.threads t).client = some c → (s.conns c).Quiet := by
        intro c hc
        by_cases heq : c = e.conn
        · rw [heq]
          exact hquiet
        · refine (h.thread t).quiet c hc ?_
          rw [ClientPc.conn, he]
          exact fun h' => heq (by cases h'; rfl)
      have hanswers : ∀ a ∈ s.answers ++ [⟨e.trip, e.payload, got⟩], a.Belongs := by
        intro a ha
        rcases List.mem_append.mp ha with ha | ha
        · exact h.belong a ha
        · rw [List.mem_singleton.mp ha]
          exact hwhole
      split at hstep
      · split at hstep
        · cases hstep
          exact h.exchange (Nat.le_refl _) (fun _ _ _ _ => rfl) (.inl hheld) hquiet
            (fun c hc _ => hclient c hc) ((h.thread t).own e he) hok.2.1 nofun hanswers
        · cases hstep
          exact h.loseConn hok.2.1 he hanswers
      · split at hstep
        · cases hstep
          refine h.settle rfl trivial (fun c hc => ?_) hanswers
          cases hc
          exact ⟨hheld, hquiet⟩
        · cases hstep
          exact h.settle rfl trivial (fun c hc => ⟨.inl hc, hclient c hc⟩) hanswers
    · cases hstep
  · cases hstep

/-- What the handler takes on a connection that a thread has is the request of its round trip. -/
theorem served_whole {conns : Nat → Connection} {th : ClientThread} {payload rest : List Sent}
    (hth : ThreadOk conns th) (hc : th.Holds c)
    (hcut : cut Prod.fst maxFrameBytes (conns c).up = some (payload, rest)) :
    ∃ e, th.pc = .receiving e [] ∧ e.conn = c ∧ payload = tagged e.payload e.trip ∧ rest = [] ∧
      (conns c).down = [] := by
  have hempty : (conns c).up ≠ [] := by
    intro hnil
    rw [hnil] at hcut
    cases hcut
  have htags : ∀ e : Exchange, (tagged (frame e.payload) e.trip).map Prod.fst = frame e.payload := by
    intro e
    rw [tagged, List.map_map, show Prod.fst ∘ (·, e.trip) = id from rfl, List.map_id]
  have hconn : th.pc.conn = some c := by
    by_contra hne
    rcases hc with hclient | hpc
    · exact hempty (hth.quiet c hclient hne).1
    · exact hne hpc
  have hok := hth.pc
  cases hpc : th.pc with
  | idle =>
    rw [hpc] at hconn
    cases hconn
  | connecting own request =>
    rw [hpc] at hconn
    cases hconn
  | sending e unsent =>
    rw [hpc] at hok hconn
    cases hconn
    obtain ⟨hpayload, -, hne, hup, -⟩ := hok
    -- bytes are missing
    have hpart : (conns e.conn).up.map Prod.fst <+: frame e.payload := by
      rw [← htags e, ← hup, List.map_append]
      exact List.prefix_append ..
    obtain ⟨hwhole, -, -⟩ := cut_part hpayload hpart hcut
    have hlen := congrArg List.length hup
    have hlen' := congrArg List.length hwhole
    simp only [tagged, List.length_append, List.length_map] at hlen hlen'
    exact absurd (List.length_eq_zero_iff.mp (by omega)) hne
  | receiving e got =>
    rw [hpc] at hok hconn
    cases hconn
    obtain ⟨hpayload, -, ⟨hup, hdown, hgot⟩ | ⟨hup, -⟩⟩ := hok
    · have hpart : (conns e.conn).up.map Prod.fst <+: frame e.payload := by
        rw [hup, htags]
      obtain ⟨-, htaken, hrest⟩ := cut_part hpayload hpart hcut
      refine ⟨e, by rw [hgot], rfl, ?_, hrest, hdown⟩
      rw [htaken, hup, tagged, tagged, ← List.map_drop, drop_frame]
    · exact absurd hup hempty

theorem serve_inv {response : Bytes} {stopped : Option Nat} (h : s.Inv) (hshort : Short response)
    (hstep : s.step (.serve c response stopped) = some s') : s'.Inv := by
  simp only [step] at hstep
  split at hstep
  · split at hstep
    · rename_i payload rest hcut
      cases hstep
      refine h.setConn fun t hc => ?_
      obtain ⟨e, hpc, hconn, htaken, hrest, hdown⟩ := served_whole (h.thread t) hc hcut
      have hok := (h.thread t).pc
      rw [hpc] at hok
      subst hconn
      refine ⟨?_, ?_, (h.thread t).own⟩
      · rw [hpc]
        refine ⟨hok.1, hok.2.1, .inr ?_⟩
        rw [setConn_self]
        refine ⟨hrest, response, hshort, ?_⟩
        rw [hdown, htaken, List.nil_append, List.nil_append]
        exact (List.take_prefix ..).map _
      · intro c' hclient hne
        have hne' : c' ≠ e.conn := by
          intro heq
          exact hne (by rw [hpc, heq]; rfl)
        rw [s.setConn_of_ne _ hne']
        exact (h.thread t).quiet c' hclient hne
    · cases hstep
  · cases hstep

theorem hangUp_inv (h : s.Inv) (hstep : s.step (.hangUp c) = some s') : s'.Inv := by
  cases hstep
  refine h.setConn fun t _ => (h.thread t).congr fun c' _ => ?_
  by_cases heq : c' = c
  · rw [heq, setConn_self]
    exact ⟨rfl, rfl⟩
  · rw [s.setConn_of_ne _ heq]
    exact ⟨rfl, rfl⟩

theorem step_inv {l : TransportLabel} (h : s.Inv) (hl : Unshared s l) (hstep : s.step l = some s') :
    s'.Inv := by
  cases l with
  | call t own request announce => exact call_inv h hl.1 hl.2 hstep
  | connect t announce => exact connect_inv h hl hstep
  | giveUp t => exact giveUp_inv h hstep
  | write t n => exact write_inv h hstep
  | read t n => exact read_inv h hstep
  | lose t => exact lose_inv h hstep
  | finish t expected => exact finish_inv h hstep
  | drop t => exact drop_inv h hstep
  | serve c response stopped => exact serve_inv h hl hstep
  | hangUp c => exact hangUp_inv h hstep
  | fork t child => exact fork_inv h hl hstep

theorem init_inv : init.Inv where
  single := by
    rintro t t' c (hc | hc) <;> cases hc
  opened := by
    rintro t c (hc | hc) <;> cases hc
  thread t := ⟨trivial, fun c hc _ => (nomatch hc), fun e he => (nomatch he)⟩
  belong := fun a ha => nomatch ha

end Transport

/-- In every run of any number of threads and processes, with failures after any byte, a response that
is received was made for the request that the round trip sent. -/
theorem answers_belong {labels : List TransportLabel} {s : Transport}
    (hrun : Runs.run Transport.step .init labels = some s)
    (hmeets : Runs.Meets Transport.step Unshared .init labels) : AnswersBelong s :=
  (Runs.run_inv_of_meets (fun _ _ _ h hl hstep => Transport.step_inv h hl hstep) Transport.init_inv
    hmeets hrun).belong

instance (payload : Bytes) : Decidable (Short payload) := inferInstanceAs (Decidable (_ < _))

instance (s : Transport) (l : TransportLabel) : Decidable (Unshared s l) :=
  match l with
  | .call _ _ _ _ => inferInstanceAs (Decidable (_ ∧ _))
  | .connect _ announce => inferInstanceAs (Decidable (∀ payload ∈ announce, Short payload))
  | .serve _ _ _ => inferInstanceAs (Decidable (Short _))
  | .fork t _ =>
    decidable_of_iff ((s.threads t).client = none ∧ (s.threads t).pc.conn = none) (by
      constructor
      · rintro ⟨hclient, hconn⟩ c (hc | hc)
        · rw [hclient] at hc
          cases hc
        · rw [hconn] at hc
          cases hc
      · intro h
        refine ⟨?_, ?_⟩ <;> refine Option.eq_none_iff_forall_not_mem.mpr fun c hc => h c ?_
        · exact .inl hc
        · exact .inr hc)
  | .giveUp _ | .write _ _ | .read _ _ | .lose _ | .finish _ _ | .drop _ | .hangUp _ =>
    inferInstanceAs (Decidable True)

namespace Sample

/-- The request for the stat of the file `b`. -/
def statOf (b : UInt8) : Bytes := [0x81, 0xa4, 0x53, 0x74, 0x61, 0x74, 0x91, 0xc4, 0x01, b]

def statA : Bytes := (VfsResponse.stat (.directory 0) 1).pack

def statB : Bytes := (VfsResponse.error .notFound "not found: b" 1).pack

/-- A call of thread `t`, on connection 0, that asks for `a`. -/
def callA (t : Nat) : List TransportLabel :=
  [.call t false (statOf 97) none, .connect t none, .write t 14, .serve t statA none, .read t 4,
    .read t 20, .finish t true]

/-- Parent and child call after the fork: the child reads first. -/
def sharing : List TransportLabel :=
  callA 0 ++ [.fork 0 1, .call 0 false (statOf 97) none, .write 0 14, .call 1 false (statOf 98) none,
    .write 1 14, .serve 0 statA none, .serve 0 statB none, .read 1 4, .read 1 20, .finish 1 true]

/-- A child that is forked before the first call has a connection of its own. -/
def unshared : List TransportLabel := .fork 0 1 :: callA 0 ++ callA 1

end Sample

/-- Parent and child have a connection each. -/
theorem answers_belong_unshared :
    ∃ s, Runs.run Transport.step .init Sample.unshared = some s ∧ s.answers.length = 2 ∧
      AnswersBelong s := by
  have hanswers : (Runs.run Transport.step .init Sample.unshared).map (·.answers.length) = some 2 := by
    decide
  obtain ⟨s, hrun, htwo⟩ := Option.map_eq_some_iff.mp hanswers
  exact ⟨s, hrun, htwo, answers_belong hrun (by decide)⟩

/-- The child gets the answer to the parent's request. -/
theorem shared_answer_strays :
    ∃ s, Runs.run Transport.step .init Sample.sharing = some s ∧ ¬ AnswersBelong s := by
  have hanswers : (Runs.run Transport.step .init Sample.sharing).map (·.answers) =
      some [⟨0, Sample.statOf 97, (frame Sample.statA).map (·, tagged (Sample.statOf 97) 0)⟩,
        ⟨2, Sample.statOf 98, (frame Sample.statA).map (·, tagged (Sample.statOf 97) 1)⟩] := by
    decide
  obtain ⟨s, hrun, hs⟩ := Option.map_eq_some_iff.mp hanswers
  refine ⟨s, hrun, fun h => ?_⟩
  obtain ⟨response, hframe⟩ := h _ (by rw [hs]; exact List.mem_cons_of_mem _ List.mem_cons_self)
  have hfirst : ((0, tagged (Sample.statOf 97) 1) : Received) ∈
      (frame Sample.statA).map (·, tagged (Sample.statOf 97) 1) := by
    decide
  have hmem : ((0, tagged (Sample.statOf 97) 1) : Received) ∈
      (frame response).map (·, tagged (Sample.statOf 98) 2) :=
    hframe ▸ hfirst
  have hne : tagged (Sample.statOf 98) 2 ≠ tagged (Sample.statOf 97) 1 := by decide
  obtain ⟨b, -, hb⟩ := List.mem_map.mp hmem
  exact hne (congrArg Prod.snd hb)

end KinVfs
