import KinVfs.Daemon.StagedTree
import KinVfs.Lib.Replay

/-!
# The projection queue (`crates/kin-vfs-shim/src/client.rs`)

A ProjFS surface queues each change that a process made through it (`notification_cb`), and one worker carries
the queue to the daemon (`admit_worker`). A content change is queued without the bytes: the worker reads the
file when it gets to it (`read_for_admission`) and skips one that is gone. A request whose reply is lost on a
connection that was open is sent again on a new one (`with_pipe_client`).

The queue is a log that is replayed late (`Replay`). A removal that comes before the read is harmless, the
removal is queued too; a rename that comes before it is not, because the daemon moves what it has.
-/

namespace KinVfs

open Posix (Fs)
open Fallible Replay

/-- A change of the surface that waits for the worker. -/
inductive ProjectionWrite where
  | content (path : VfsPath)
  | removed (path : VfsPath)
  | renamed (old new : VfsPath)
  deriving DecidableEq

/-- The `VfsRequest`s of the worker. -/
inductive ProjectionRequest where
  | write (path : VfsPath) (data : Bytes)
  | remove (path : VfsPath)
  | rename (old new : VfsPath)
  deriving DecidableEq

/-- `admit_projection_write` of `server.rs`. -/
def admitProjectionWrite (repoRoot : Posix.Path) : ProjectionRequest → WriterM Unit
  | .write path data => do
    let _ ← KinDaemonWriter.admitWrite repoRoot path data
  | .remove path => KinDaemonWriter.remove repoRoot path
  | .rename old new => KinDaemonWriter.rename repoRoot old new

namespace ProjectionWrite

/-- The change is one of the path. -/
def names (path : VfsPath) : ProjectionWrite → Bool
  | content p | removed p => p = path
  | renamed old new => old = path || new = path

end ProjectionWrite

def ProjectionRequest.paths : ProjectionRequest → List VfsPath
  | write path _ | remove path => [path]
  | rename old new => [old, new]

/-- The surface, the queue and its worker, and the daemon. `taken` and `effects` are history: how many changes
the worker has taken from the queue, and which of them, by number, changed the staged tree. -/
structure Projection where
  /-- The files of the surface. -/
  files : VfsPath → Option Bytes
  queue : List ProjectionWrite
  /-- The request the worker waits for. -/
  sending : Option ProjectionRequest
  /-- The worker's `PIPE_CLIENT` is set. -/
  connected : Bool
  daemon : World
  taken : Nat
  effects : List Nat

namespace Projection

inductive Action where
  /-- A file is created, or its content changes. -/
  | change (path : VfsPath) (data : Bytes)
  | remove (path : VfsPath)
  | rename (old new : VfsPath)
  /-- The worker takes the next change and reads the file. -/
  | take
  /-- The daemon handles the request; its reply may be lost. -/
  | serve (lost : Bool)

def Action.paths : Action → List VfsPath
  | change path _ | remove path => [path]
  | rename old new => [old, new]
  | take | serve _ => []

/-- Nothing is queued. -/
def start (files : VfsPath → Option Bytes) (connected : Bool) (daemon : World) : Projection :=
  ⟨files, [], none, connected, daemon, 0, []⟩

/-- `read_for_admission`: a file over the limit, or gone, is not read. -/
def readForAdmission (files : VfsPath → Option Bytes) (path : VfsPath) : Option Bytes :=
  match files path with
  | some data => if maxProjectionWrite < data.length then none else some data
  | none => none

/-- The request of `admit_one`. -/
def requestOf (files : VfsPath → Option Bytes) : ProjectionWrite → Option ProjectionRequest
  | .content path => (readForAdmission files path).map (.write path)
  | .removed path => some (.remove path)
  | .renamed old new => some (.rename old new)

section Steps

variable (graph : ContentProvider) (repoRoot : Posix.Path)

def stepChange (s : Projection) (path : VfsPath) (data : Bytes) : Option Projection :=
  if data.length ≤ maxProjectionWrite then
    some { s with
      files := Function.update s.files path (some data)
      queue := s.queue ++ [.content path] }
  else none

def stepRemove (s : Projection) (path : VfsPath) : Option Projection :=
  if s.files path ≠ none then
    some { s with
      files := Function.update s.files path none
      queue := s.queue ++ [.removed path] }
  else none

def stepRename (s : Projection) (old new : VfsPath) : Option Projection :=
  if s.files old ≠ none ∧ old ≠ new then
    some { s with
      files := Function.update (Function.update s.files new (s.files old)) old none
      queue := s.queue ++ [.renamed old new] }
  else none

def stepTake (s : Projection) : Option Projection :=
  match s.sending, s.queue with
  | none, write :: queue =>
    some { s with queue := queue, taken := s.taken + 1, sending := requestOf s.files write }
  | _, _ => none

/-- The staged tree of two states differs at one of the paths. -/
def differs (paths : List VfsPath) (w w' : World) : Bool :=
  paths.any fun p => stagedTree graph repoRoot w' p ≠ stagedTree graph repoRoot w p

/-- A reply that is lost on the open connection closes it, and the request is sent again on a new one; one that
is lost there is given up. -/
def stepServe (s : Projection) (lost : Bool) : Option Projection :=
  match s.sending with
  | some request =>
    let daemon := (exec (admitProjectionWrite repoRoot request) s.daemon).2
    some { s with
      daemon := daemon
      sending := if lost && s.connected then some request else none
      connected := !lost
      effects := if differs graph repoRoot request.paths s.daemon daemon then s.effects ++ [s.taken]
        else s.effects }
  | none => none

def step (s : Projection) : Action → Option Projection
  | .change path data => s.stepChange path data
  | .remove path => s.stepRemove path
  | .rename old new => s.stepRename old new
  | .take => s.stepTake
  | .serve lost => s.stepServe graph repoRoot lost

end Steps

/-! ## The property and its condition -/

/-- The file paths that the operations of a run name. -/
def Touched (ls : List Action) (p : VfsPath) : Prop := ∃ l ∈ ls, p ∈ l.paths

/-- **The property.** When the queue has drained, the staged tree is the surface; and the changes took effect in
order and each at most once. -/
structure Converges (T : VfsPath → Prop) (graph : ContentProvider) (repoRoot : Posix.Path) (s : Projection) :
    Prop where
  drained : s.queue = [] → s.sending = none → ∀ p, T p → stagedTree graph repoRoot s.daemon p = s.files p
  ordered : s.effects.Pairwise (· < ·)

/-- The last queued change of the path is a content change: its bytes are not read yet. -/
def contentPending (queue : List ProjectionWrite) (path : VfsPath) : Bool :=
  (queue.filter (·.names path)).getLast? = some (.content path)

/-- What the request takes is in the working copy, as the staged tree shows it. -/
def AtHand (graph : ContentProvider) (repoRoot : Posix.Path) (w : World) : ProjectionRequest → Prop
  | .write .. => True
  | .remove path => stagedTree graph repoRoot w path ≠ none → versionAt repoRoot w.host path ≠ none
  | .rename old _ => stagedTree graph repoRoot w old ≠ none →
      versionAt repoRoot w.host old = stagedTree graph repoRoot w old

/-- **The condition on a step.** A file is not renamed while its content waits to be read; and the file that the
daemon is asked to remove or to rename is in its working copy. -/
def Orderly (graph : ContentProvider) (repoRoot : Posix.Path) (s : Projection) : Action → Prop
  | .rename old _ => contentPending s.queue old = false
  | .serve _ => ∀ request ∈ s.sending, AtHand graph repoRoot s.daemon request
  | _ => True

instance {graph : ContentProvider} {repoRoot : Posix.Path} {w : World} :
    ∀ request, Decidable (AtHand graph repoRoot w request)
  | .write .. => inferInstanceAs (Decidable True)
  | .remove path => inferInstanceAs (Decidable (stagedTree graph repoRoot w path ≠ none → _ ≠ none))
  | .rename old _ => inferInstanceAs (Decidable (stagedTree graph repoRoot w old ≠ none → _ = _))

instance {graph : ContentProvider} {repoRoot : Posix.Path} {s : Projection} :
    ∀ l, Decidable (Orderly graph repoRoot s l)
  | .rename old _ => inferInstanceAs (Decidable (contentPending s.queue old = false))
  | .serve _ => inferInstanceAs (Decidable (∀ request ∈ s.sending, AtHand graph repoRoot s.daemon request))
  | .change .. | .remove _ | .take => inferInstanceAs (Decidable True)

/-! ## The daemon -/

section Daemon

variable {T : VfsPath → Prop} {graph : ContentProvider} {root r : Posix.Path} {w : World}
  {c : Change {p // T p} Bytes}

/-- The files at the paths of `T`. -/
def on (T : VfsPath → Prop) (f : VfsPath → Option Bytes) (k : {p // T p}) : Option Bytes := f k

theorem on_update {f : VfsPath → Option Bytes} {k : {p // T p}} {x : Option Bytes} :
    on T (Function.update f k x) = Function.update (on T f) k x := by
  funext j
  by_cases hj : j = k
  · subst hj
    simp [on]
  · have hne : (j : VfsPath) ≠ k := fun h => hj (Subtype.ext h)
    simp only [on, Function.update_of_ne hj, Function.update_of_ne hne]

/-- The request for a change. -/
def asked : Change {p // T p} Bytes → ProjectionRequest
  | .put k data => .write k data
  | .delete k => .remove k
  | .move a b => .rename a b

/-- The content is within the limit. -/
def Bounded : Change {p // T p} Bytes → Prop
  | .put _ data => data.length ≤ maxProjectionWrite
  | _ => True

/-- The change was made: to ask for it again changes nothing. -/
def Spent (graph : ContentProvider) (root r : Posix.Path) (w : World) : Change {p // T p} Bytes → Prop
  | .put k data => stagedTree graph root w k = some data
  | .delete k => fileAt r w.host k = none
  | .move a _ => fileAt r w.host a = none

/-- **The daemon makes the change** that it is asked for. -/
theorem served (graph : ContentProvider) (hF : Fine T root r w) (hT : Separate T) (hb : Bounded c)
    (hc : c.Finds (on T (stagedTree graph root w))) (hat : AtHand graph root w (asked c)) :
    Fine T root r (exec (admitProjectionWrite root (asked c)) w).2 ∧
      on T (stagedTree graph root (exec (admitProjectionWrite root (asked c)) w).2) =
        c.apply (on T (stagedTree graph root w)) ∧
      Spent graph root r (exec (admitProjectionWrite root (asked c)) w).2 c := by
  cases c with
  | put k data =>
    obtain ⟨st, w', hx, hF', htree⟩ := hF.write graph hT k.2 hb
    have hexec : exec (admitProjectionWrite root (asked (.put k data))) w = (.ok (), w') := by
      simp only [admitProjectionWrite, asked, exec_bind, hx]
      rfl
    rw [hexec]
    refine ⟨hF', ?_, (htree k k.2).trans (if_pos rfl)⟩
    funext j
    rw [Change.apply, Function.update_apply, on, htree j j.2]
    simp only [Subtype.ext_iff, on]
  | delete k =>
    cases hf : fileAt r w.host k with
    | some data =>
      obtain ⟨w', hx, hF', hgone, htree⟩ := hF.remove graph hT k.2 hf
      have hexec : exec (admitProjectionWrite root (asked (.delete k))) w = (.ok (), w') := hx
      rw [hexec]
      refine ⟨hF', ?_, hgone⟩
      funext j
      rw [Change.apply, Function.update_apply, on, htree j j.2]
      simp only [Subtype.ext_iff, on]
    | none =>
      have hx := hF.remove_absent hT k.2 hf
      have hexec : exec (admitProjectionWrite root (asked (.delete k))) w = (.error (.io .notFound), w) := hx
      rw [hexec]
      refine ⟨hF, ?_, hf⟩
      -- The working copy does not have the file, so the tree does not show it.
      have hnone : stagedTree graph root w k = none := by
        by_contra hne
        exact hat hne (by rw [hF.laid.versionAt_eq hT k.2, hf])
      exact (Function.update_eq_self_iff.mpr hnone.symm).symm
  | move a b =>
    obtain ⟨hthere, hne⟩ := hc
    have hne' : (a : VfsPath) ≠ b := fun h => hne (Subtype.ext h)
    have hf : fileAt r w.host a = stagedTree graph root w a := by
      rw [← hF.laid.versionAt_eq hT a.2]
      exact hat hthere
    obtain ⟨data, hdata⟩ := Option.ne_none_iff_exists'.mp hthere
    rw [on] at hdata
    obtain ⟨w', hx, hF', hgone, htree⟩ := hF.rename graph hT a.2 b.2 hne' (hf.trans hdata)
    have hexec : exec (admitProjectionWrite root (asked (.move a b))) w = (.ok (), w') := hx
    rw [hexec]
    refine ⟨hF', ?_, hgone⟩
    funext j
    rw [Change.apply, Function.update_apply, Function.update_apply, on, htree j j.2]
    simp only [Subtype.ext_iff, on, hdata]

/-- **A request that is sent again** changes nothing. -/
theorem served_again (hF : Fine T root r w) (hT : Separate T) (hb : Bounded c)
    (hs : Spent graph root r w c) :
    Fine T root r (exec (admitProjectionWrite root (asked c)) w).2 ∧
      on T (stagedTree graph root (exec (admitProjectionWrite root (asked c)) w).2) =
        on T (stagedTree graph root w) ∧
      Spent graph root r (exec (admitProjectionWrite root (asked c)) w).2 c := by
  cases c with
  | put k data =>
    obtain ⟨hF', htree, hs'⟩ := served graph (c := .put k data) hF hT hb trivial trivial
    refine ⟨hF', ?_, hs'⟩
    rw [htree]
    exact Function.update_eq_self_iff.mpr hs.symm
  | delete k =>
    have hexec : exec (admitProjectionWrite root (asked (.delete k))) w = (.error (.io .notFound), w) :=
      hF.remove_absent hT k.2 hs
    rw [hexec]
    exact ⟨hF, rfl, hs⟩
  | move a b =>
    obtain ⟨w', hx, hF', hgone, htree⟩ := hF.rename_absent graph hT a.2 b.2 hs
    have hexec : exec (admitProjectionWrite root (asked (.move a b))) w = (.error (.io .notFound), w') := hx
    rw [hexec]
    exact ⟨hF', funext fun j => htree j j.2, hgone⟩

end Daemon

/-! ## What the queue owes -/

section Queue

variable {T : VfsPath → Prop} {graph : ContentProvider} {root r : Posix.Path} {s s' : Projection}
  {now cs : List (Change {p // T p} Bytes)} {c : Change {p // T p} Bytes}

/-- How a change is queued: a content change without the content. -/
def queued : Change {p // T p} Bytes → ProjectionWrite
  | .put k _ => .content k
  | .delete k => .removed k
  | .move a b => .renamed a b

theorem names_queued {k : {p // T p}} : (queued c).names k = true ↔ c.Touches k := by
  cases c <;> simp [queued, ProjectionWrite.names, Change.Touches, Subtype.ext_iff]

theorem contentPending_of_unread {k : {p // T p}} (h : Unread k cs) :
    contentPending (cs.map queued) k = true := by
  obtain ⟨pre, v, post, rfl, hpost⟩ := h
  have hlast : (post.map queued).filter (·.names k) = [] := by
    rw [List.filter_eq_nil_iff]
    intro x hx
    obtain ⟨d, hd, rfl⟩ := List.mem_map.mp hx
    rw [names_queued]
    exact hpost d hd
  have hthis : (queued (.put k v)).names k = true := names_queued.mpr rfl
  simp only [contentPending, List.map_append, List.map_cons, List.filter_append, List.filter_cons, hthis,
    if_true, hlast, List.getLast?_append, List.getLast?_singleton, Option.some_or, decide_eq_true_eq]
  rfl

/-- The changes that make the staged tree the surface: `now` the one in flight, unless it was made already, and
`cs` the queue, with the contents that the changes had. -/
structure Owes (T : VfsPath → Prop) (graph : ContentProvider) (root r : Posix.Path) (s : Projection)
    (now cs : List (Change {p // T p} Bytes)) : Prop where
  fine : Fine T root r s.daemon
  short : ∀ k data, on T s.files k = some data → data.length ≤ maxProjectionWrite
  queue : s.queue = cs.map queued
  settled : Settled cs
  ready : Ready (on T (stagedTree graph root s.daemon)) (now ++ cs)
  surface : replay (on T (stagedTree graph root s.daemon)) (now ++ cs) = on T s.files
  idle : s.sending = none → now = []
  sent : ∀ request ∈ s.sending, ∃ c, request = asked c ∧ Bounded c ∧
    (now = [c] ∨ now = [] ∧ Spent graph root r s.daemon c)
  ordered : s.effects.Pairwise (· < ·)
  below : ∀ n ∈ s.effects, n ≤ s.taken ∧ (now ≠ [] → n < s.taken)

theorem apply_short {t : {p // T p} → Option Bytes} (hb : Bounded c)
    (ht : ∀ k data, t k = some data → data.length ≤ maxProjectionWrite) (k : {p // T p}) (data : Bytes)
    (h : c.apply t k = some data) : data.length ≤ maxProjectionWrite := by
  cases c with
  | put j v =>
    rw [Change.apply, Function.update_apply] at h
    split at h
    · cases h
      exact hb
    · exact ht k data h
  | delete j =>
    rw [Change.apply, Function.update_apply] at h
    split at h
    · cases h
    · exact ht k data h
  | move a b =>
    rw [Change.apply, Function.update_apply, Function.update_apply] at h
    split at h
    · cases h
    · split at h
      · exact ht a data h
      · exact ht k data h

/-- **A change of the surface** is queued. -/
theorem Owes.log (ho : Owes T graph root r s now cs) {f : VfsPath → Option Bytes}
    (hf : on T f = c.apply (on T s.files)) (hb : Bounded c) (hc : c.Finds (on T s.files))
    (hm : ∀ a b, c = .move a b → contentPending s.queue a = false) :
    Owes T graph root r { s with files := f, queue := s.queue ++ [queued c] } now (cs ++ [c]) := by
  refine ⟨ho.fine, fun k data h => ?_, ?_, ?_, ?_, ?_, ho.idle, ho.sent, ho.ordered, ho.below⟩
  · exact apply_short hb ho.short k data (by rw [← hf]; exact h)
  · simp only [ho.queue, List.map_append, List.map_singleton]
  · refine settled_concat ho.settled fun a b hab hun => ?_
    have hno := hm a b hab
    rw [ho.queue, contentPending_of_unread hun] at hno
    cases hno
  · rw [← List.append_assoc, ready_concat]
    exact ⟨ho.ready, by rw [ho.surface]; exact hc⟩
  · rw [← List.append_assoc, replay_concat, ho.surface]
    exact hf.symm

/-- **The worker takes a change.** -/
theorem Owes.take (ho : Owes T graph root r s now cs) (hstep : s.stepTake = some s') :
    ∃ now' cs', Owes T graph root r s' now' cs' := by
  unfold stepTake at hstep
  split at hstep
  swap
  · cases hstep
  rename_i write queue hidle hqueue
  cases hstep
  obtain rfl := ho.idle hidle
  have hready := ho.ready
  have hsurface := ho.surface
  rw [List.nil_append] at hready hsurface
  have hbelow : ∀ n ∈ s.effects, n < s.taken + 1 := fun n hn => Nat.lt_succ_of_le (ho.below n hn).1
  have hq := ho.queue
  rw [hqueue] at hq
  cases cs with
  | nil => cases hq
  | cons c cs =>
    obtain ⟨rfl, rfl⟩ := List.cons.inj hq
    -- A request with the log as it was.
    have hsend : ∀ c', Bounded c' → requestOf s.files (queued c) = some (asked c') → Settled cs →
        Ready (on T (stagedTree graph root s.daemon)) (c' :: cs) →
        replay (on T (stagedTree graph root s.daemon)) (c' :: cs) = on T s.files →
        Owes T graph root r { s with
          queue := cs.map queued, taken := s.taken + 1, sending := requestOf s.files (queued c) } [c'] cs := by
      intro c' hb hreq hset hrd hrep
      refine ⟨ho.fine, ho.short, rfl, hset, hrd, hrep, fun h => ?_, fun request h => ?_, ho.ordered,
        fun n hn => ⟨Nat.le_of_lt (hbelow n hn), fun _ => hbelow n hn⟩⟩
      · rw [hreq] at h
        cases h
      · rw [Option.mem_def, hreq] at h
        cases h
        exact ⟨c', rfl, hb, .inl rfl⟩
    cases c with
    | put k v =>
      obtain ⟨hun, hset⟩ := ho.settled
      have hrd : Ready (on T (stagedTree graph root s.daemon)) cs := (ready_update hun).mp hready.2
      cases hfile : s.files k with
      | none =>
        have hreq : requestOf s.files (queued (.put k v)) = none := by
          simp only [requestOf, queued, readForAdmission, hfile, Option.map_none]
        refine ⟨[], cs, ho.fine, ho.short, rfl, hset, hrd, ?_, fun _ => rfl, fun request h => ?_, ho.ordered,
          fun n hn => ⟨Nat.le_of_lt (hbelow n hn), fun h => absurd rfl h⟩⟩
        · rw [List.nil_append, replay_gone ho.settled (by rw [hsurface]; exact hfile), hsurface]
        · rw [Option.mem_def, hreq] at h
          cases h
      | some data =>
        have hlen : data.length ≤ maxProjectionWrite := ho.short k data hfile
        have hreq : requestOf s.files (queued (.put k v)) = some (asked (.put k data)) := by
          simp only [requestOf, queued, readForAdmission, hfile, if_neg (Nat.not_lt.mpr hlen), Option.map_some,
            asked]
        refine ⟨[.put k data], cs, hsend _ hlen hreq hset ⟨trivial, (ready_update hun).mpr hrd⟩ ?_⟩
        rw [replay_cons, Change.apply, replay_late ho.settled (by rw [hsurface]; exact hfile), hsurface]
    | delete k => exact ⟨_, cs, hsend (.delete k) trivial rfl ho.settled hready hsurface⟩
    | move a b => exact ⟨_, cs, hsend (.move a b) trivial rfl ho.settled hready hsurface⟩

theorem differs_eq_false {w w' : World} (h : on T (stagedTree graph root w') = on T (stagedTree graph root w)) :
    differs graph root (asked c).paths w w' = false := by
  have hsame : ∀ k : {p // T p}, stagedTree graph root w' k = stagedTree graph root w k := fun k => congrFun h k
  cases c <;> simp [differs, asked, ProjectionRequest.paths, hsame]

/-- **The daemon handles a request**, for the first time or again. -/
theorem Owes.serve (ho : Owes T graph root r s now cs) (hT : Separate T) {lost : Bool}
    (hat : ∀ request ∈ s.sending, AtHand graph root s.daemon request)
    (hstep : s.stepServe graph root lost = some s') : Owes T graph root r s' [] cs := by
  unfold stepServe at hstep
  split at hstep
  swap
  · cases hstep
  rename_i request hsending
  cases hstep
  obtain ⟨c, rfl, hb, hor⟩ := ho.sent request hsending
  have hready := ho.ready
  have hsurface := ho.surface
  -- In both cases the tree is now as the change in flight leaves it.
  obtain ⟨hF, hspent, hready', hsurface', heffects⟩ :
      Fine T root r (exec (admitProjectionWrite root (asked c)) s.daemon).2 ∧
      Spent graph root r (exec (admitProjectionWrite root (asked c)) s.daemon).2 c ∧
      Ready (on T (stagedTree graph root (exec (admitProjectionWrite root (asked c)) s.daemon).2)) cs ∧
      replay (on T (stagedTree graph root (exec (admitProjectionWrite root (asked c)) s.daemon).2)) cs =
        on T s.files ∧
      (differs graph root (asked c).paths s.daemon (exec (admitProjectionWrite root (asked c)) s.daemon).2 = false ∨
        ∀ n ∈ s.effects, n < s.taken) := by
    rcases hor with rfl | ⟨rfl, hspent⟩
    · rw [List.singleton_append] at hready hsurface
      obtain ⟨hF, htree, hspent⟩ := served graph ho.fine hT hb hready.1 (hat _ hsending)
      rw [htree]
      exact ⟨hF, hspent, hready.2, hsurface, .inr fun n hn => (ho.below n hn).2 (by simp)⟩
    · obtain ⟨hF, htree, hspent⟩ := served_again ho.fine hT hb hspent
      refine ⟨hF, hspent, ?_, ?_, .inl (differs_eq_false htree)⟩
      · rw [htree]
        exact hready
      · rw [htree]
        exact hsurface
  refine ⟨hF, ho.short, ho.queue, ho.settled, hready', hsurface', fun _ => rfl, fun request' h => ?_, ?_, ?_⟩
  · dsimp only at h
    split at h
    · cases h
      exact ⟨c, rfl, hb, .inr ⟨rfl, hspent⟩⟩
    · cases h
  · dsimp only
    split
    · rename_i hdiff
      have hlt := heffects.resolve_left (by rw [hdiff]; simp)
      rw [List.pairwise_append]
      refine ⟨ho.ordered, List.pairwise_singleton _ _, fun n hn m hm => ?_⟩
      rw [List.mem_singleton.mp hm]
      exact hlt n hn
    · exact ho.ordered
  · intro n hn
    refine ⟨?_, fun h => absurd rfl h⟩
    dsimp only at hn
    split at hn
    · rcases List.mem_append.mp hn with hn | hn
      · exact (ho.below n hn).1
      · rw [List.mem_singleton.mp hn]
    · exact (ho.below n hn).1

theorem owes_step {l : Action} (hT : Separate T) (hl : ∀ p ∈ l.paths, T p)
    (ho : ∃ now cs, Owes T graph root r s now cs) (hc : Orderly graph root s l)
    (hstep : s.step graph root l = some s') : ∃ now cs, Owes T graph root r s' now cs := by
  obtain ⟨now, cs, ho⟩ := ho
  cases l with
  | change path data =>
    have hp : T path := hl path List.mem_cons_self
    simp only [step, stepChange] at hstep
    split at hstep
    · rename_i hlen
      cases hstep
      refine ⟨now, _, ho.log (c := .put ⟨path, hp⟩ data) (on_update (k := ⟨path, hp⟩)) hlen trivial
        fun a b h => ?_⟩
      cases h
    · cases hstep
  | remove path =>
    have hp : T path := hl path List.mem_cons_self
    simp only [step, stepRemove] at hstep
    split at hstep
    · cases hstep
      refine ⟨now, _, ho.log (c := .delete ⟨path, hp⟩) (on_update (k := ⟨path, hp⟩)) trivial trivial
        fun a b h => ?_⟩
      cases h
    · cases hstep
  | rename old new =>
    have hold : T old := hl old List.mem_cons_self
    have hnew : T new := hl new (List.mem_cons_of_mem _ List.mem_cons_self)
    simp only [step, stepRename] at hstep
    split at hstep
    · rename_i hthere
      cases hstep
      refine ⟨now, _, ho.log (c := .move ⟨old, hold⟩ ⟨new, hnew⟩) ?_ trivial ⟨hthere.1, ?_⟩
        fun a b h => ?_⟩
      · have harrive : on T (Function.update s.files new (s.files old)) =
            Function.update (on T s.files) ⟨new, hnew⟩ (s.files old) := on_update (k := ⟨new, hnew⟩)
        have hleave : on T (Function.update (Function.update s.files new (s.files old)) old none) =
            Function.update (on T (Function.update s.files new (s.files old))) ⟨old, hold⟩ none :=
          on_update (k := ⟨old, hold⟩)
        rw [hleave, harrive]
        rfl
      · intro h
        exact hthere.2 (congrArg Subtype.val h)
      · cases h
        exact hc
    · cases hstep
  | take => exact ho.take hstep
  | serve lost => exact ⟨[], cs, ho.serve hT hc hstep⟩

end Queue

/-- **When the projection queue converges**: in every run of operations on file paths, with any delays of the
worker and any lost replies, whose steps all meet the condition. -/
theorem converges_of_orderly {graph : ContentProvider} {root r : Posix.Path} {files : VfsPath → Option Bytes}
    {connected : Bool} {w : World} {ls : List Action} {s : Projection}
    (hT : Separate (Touched ls)) (hF : Fine (Touched ls) root r w)
    (hsame : ∀ p, Touched ls p → stagedTree graph root w p = files p)
    (hshort : ∀ p data, Touched ls p → files p = some data → data.length ≤ maxProjectionWrite)
    (hm : Runs.Meets (step graph root) (Orderly graph root) (.start files connected w) ls)
    (hrun : Runs.run (step graph root) (.start files connected w) ls = some s) :
    Converges (Touched ls) graph root s := by
  have hmeets := hm.and_forall (D := fun l => ∀ p ∈ l.paths, Touched ls p) fun l hl p hp => ⟨l, hl, hp⟩
  have hstart : ∃ now cs, Owes (Touched ls) graph root r (.start files connected w) now cs := by
    refine ⟨[], [], hF, fun k data h => hshort k data k.2 h, rfl, trivial, trivial, ?_, fun _ => rfl,
      fun request h => ?_, List.Pairwise.nil, fun n hn => ?_⟩
    · exact funext fun k => hsame k k.2
    · cases h
    · cases hn
  obtain ⟨now, cs, ho⟩ := Runs.run_inv_of_meets
    (P := fun s => ∃ now cs, Owes (Touched ls) graph root r s now cs)
    (fun s l s' ho hc hstep => owes_step hT hc.2 ho hc.1 hstep) hstart hmeets hrun
  refine ⟨fun hqueue hidle p hp => ?_, ho.ordered⟩
  obtain rfl := ho.idle hidle
  have hnil : cs = [] := by
    have hq := ho.queue
    rw [hqueue] at hq
    exact List.map_eq_nil_iff.mp hq.symm
  subst hnil
  exact congrFun ho.surface ⟨p, hp⟩

namespace Sample

open KinVfs.Sample

/-- The path `b`. -/
def b : VfsPath := KinVfs.Sample.b

/-- The surface and the graph have no file. -/
def noFiles (_ : VfsPath) : Option Bytes := none

/-- `a` is written, its request is answered the second time, and then it is renamed. -/
def renamedLater : List Action :=
  [.change a [1], .take, .serve true, .serve false, .rename a b, .take, .serve false]

/-- `a` is written and renamed before the worker gets to it. -/
def renamedFirst : List Action := [.change a [1], .rename a b, .take, .take, .serve false]

theorem separate {T : VfsPath → Prop} (hT : ∀ p, T p → p = a ∨ p = b) : Separate T := by
  refine ⟨fun h => ?_, fun p q hp hq => ?_⟩
  · rcases hT _ h with h | h <;> exact absurd h (by decide)
  · rcases hT p hp with rfl | rfl <;> rcases hT q hq with rfl | rfl <;> decide

theorem fine {T : VfsPath → Prop} (hT : ∀ p, T p → p = a ∨ p = b) : Fine T [] [] world := by
  refine ⟨⟨by decide, fun p d hp hd => ?_, fun p hp => .inl ?_⟩, fun p st hp hs => ?_⟩
  · obtain ⟨cs, hne, hcs⟩ := VfsPath.isAncestorOf_iff.mp hd
    have hroot : d.components = [] := by
      have hlen : p.components.length = 1 := by rcases hT p hp with rfl | rfl <;> decide
      have hpos := List.length_pos_of_ne_nil hne
      rw [hcs, List.length_append] at hlen
      exact List.eq_nil_of_length_eq_zero (by omega)
    rw [place, hroot]
    exact .inr (by decide)
  · rcases hT p hp with rfl | rfl <;> decide
  · cases hs

end Sample

theorem converges_of_orderly_renamedLater :
    ∃ s, Runs.run (step Sample.noGraph []) (.start Sample.noFiles true Sample.world) Sample.renamedLater = some s ∧
      s.queue = [] ∧ s.sending = none ∧ s.files Sample.b = some [1] ∧
      Converges (Touched Sample.renamedLater) Sample.noGraph [] s := by
  have htouched : ∀ p, Touched Sample.renamedLater p → p = Sample.a ∨ p = Sample.b := by
    simp [Touched, Sample.renamedLater, Action.paths]
  have hrun : (Runs.run (step Sample.noGraph []) (.start Sample.noFiles true Sample.world)
      Sample.renamedLater).map (fun s => (s.queue, s.sending, s.files Sample.b)) = some ([], none, some [1]) := by
    decide +kernel
  obtain ⟨s, hs, hend⟩ := Option.map_eq_some_iff.mp hrun
  simp only [Prod.mk.injEq] at hend
  refine ⟨s, hs, hend.1, hend.2.1, hend.2.2, ?_⟩
  exact converges_of_orderly (Sample.separate htouched) (Sample.fine htouched) (fun _ _ => rfl)
    (fun p data _ h => by cases h) (by decide +kernel) hs

/-- A file that is written and then renamed, before the worker reads it, never gets to the daemon. -/
theorem renamedFirst_lost :
    Separate (Touched Sample.renamedFirst) ∧ Fine (Touched Sample.renamedFirst) [] [] Sample.world ∧
      (∀ p, stagedTree Sample.noGraph [] Sample.world p = Sample.noFiles p) ∧
      ∃ s, Runs.run (step Sample.noGraph []) (.start Sample.noFiles true Sample.world) Sample.renamedFirst =
          some s ∧
        s.queue = [] ∧ s.sending = none ∧ s.files Sample.b = some [1] ∧
        stagedTree Sample.noGraph [] s.daemon Sample.b = none ∧
        ¬ Converges (Touched Sample.renamedFirst) Sample.noGraph [] s := by
  have htouched : ∀ p, Touched Sample.renamedFirst p → p = Sample.a ∨ p = Sample.b := by
    simp [Touched, Sample.renamedFirst, Action.paths]
  have hrun : (Runs.run (step Sample.noGraph []) (.start Sample.noFiles true Sample.world)
      Sample.renamedFirst).map (fun s => (s.queue, s.sending, s.files Sample.b,
        stagedTree Sample.noGraph [] s.daemon Sample.b)) = some ([], none, some [1], none) := by
    decide +kernel
  obtain ⟨s, hs, hend⟩ := Option.map_eq_some_iff.mp hrun
  simp only [Prod.mk.injEq] at hend
  obtain ⟨hqueue, hidle, hfile, htree⟩ := hend
  refine ⟨Sample.separate htouched, Sample.fine htouched, fun _ => rfl, s, hs, hqueue, hidle, hfile, htree,
    fun h => ?_⟩
  have hsame := h.drained hqueue hidle Sample.b ⟨.rename Sample.a Sample.b, by simp [Sample.renamedFirst], by
    simp [Action.paths]⟩
  rw [htree, hfile] at hsame
  cases hsame

end Projection

end KinVfs
