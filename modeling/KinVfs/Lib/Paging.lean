import KinVfs.Lib.Interleave
import Mathlib.Algebra.BigOperators.Group.List.Basic
import Mathlib.Algebra.BigOperators.Group.Finset.Basic
import Mathlib.Algebra.Order.BigOperators.Group.Finset

/-!
# Paging through a listing by key

A server answers the page of a listing that starts after the entry with a given key (0 for the first page),
and says whether it is the last (`readPage`). A client asks for one page after the other, each time after the
key it was shown for the last entry. What it is shown need not be what the server compares: `tr` is what
becomes of a key on its way back.

`complete_of_resumes`: the pages are the listing, in its order, when the server resumes at the next entry
after each page. `not_complete`: they are not once it resumes with an entry of another name.
-/

namespace Paging

open Interleave

variable {α β ν σ ε : Type}

/-! ## One page -/

/-- What is left once the entry with key `start` has been passed. -/
def past (key : α → Nat) (start : Nat) : List α → List α
  | [] => []
  | x :: xs => if key x = start then xs else past key start xs

/-- Where a page starts. -/
def resume (key : α → Nat) (start : Nat) (xs : List α) : List α :=
  if start = 0 then xs else past key start xs

/-- How many entries come before it, as the end of the listing is told. -/
def skipCount (key : α → Nat) (start : Nat) (xs : List α) : Nat :=
  if start = 0 then 0
  else
    match xs.findIdx? fun x => key x == start with
    | some p => p + 1
    | none => 0

/-- The loop over the listing: `true` while it skips. An entry whose attributes cannot be read is left out. -/
def collect (key : α → Nat) (attr : α → Prog σ ε (Option β)) (start max : Nat) :
    Bool → List β → List α → Prog σ ε (List β)
  | _, acc, [] => pure acc
  | true, acc, x :: xs => collect key attr start max (key x != start) acc xs
  | false, acc, x :: xs =>
    if max ≤ acc.length then pure acc
    else do
      match ← attr x with
      | some y => collect key attr start max false (acc ++ [y]) xs
      | none => collect key attr start max false acc xs

def readPage (key : α → Nat) (attr : α → Prog σ ε (Option β)) (start max : Nat) (xs : List α) :
    Prog σ ε (List β × Bool) := do
  let entries ← collect key attr start max (start != 0) [] xs
  pure (entries, decide (entries.length < max) || decide (xs.length ≤ skipCount key start xs + entries.length))

section Page

variable {key : α → Nat} {attr : α → Prog σ ε (Option β)} {start max : Nat} {xs : List α}
variable {I : σ → Prop} {R : σ → σ → Prop} {s t : σ} {tag : β → ν} {view : α → ν}

/-- From `s` on, the attributes of every entry of `xs` can be read. -/
def Readable (I : σ → Prop) (R : σ → σ → Prop) (s : σ) (tag : β → ν) (view : α → ν)
    (attr : α → Prog σ ε (Option β)) (xs : List α) : Prop :=
  ∀ x ∈ xs, ∀ t, I t → R s t → Yields I R (fun r _ => ∃ y, r = .ok (some y) ∧ tag y = view x) (attr x) t

theorem collect_open {acc : List β} (hrely : Rely R) (h : Readable I R s tag view attr xs)
    (hacc : acc.length ≤ max) (ht : I t) (hst : R s t) :
    Yields I R (fun r _ => ∃ ys, r = .ok (acc ++ ys) ∧ ys.map tag = (xs.take (max - acc.length)).map view)
      (collect key attr start max false acc xs) t := by
  induction xs generalizing acc t with
  | nil => exact ⟨[], by simp, by simp⟩
  | cons x xs ih =>
    rw [collect]
    split
    · refine ⟨[], by simp, ?_⟩
      rw [show max - acc.length = 0 by omega]
      simp
    · rename_i hroom
      refine (h x List.mem_cons_self t ht hst).andThen hrely ht ?_ (fun e u ⟨_, he, _⟩ => by cases he)
      rintro o u ⟨y, ho, hy⟩ hu htu
      cases ho
      refine (ih (fun z hz => h z (List.mem_cons_of_mem _ hz)) (by simp; omega) hu
        (hrely.trans hst htu)).mono ?_
      rintro r v ⟨ys, rfl, hys⟩
      refine ⟨y :: ys, by simp, ?_⟩
      rw [List.length_append, List.length_singleton] at hys
      rw [show max - acc.length = (max - (acc.length + 1)) + 1 by omega, List.take_succ_cons, List.map_cons,
        List.map_cons, hys, hy]

theorem collect_skipping (hrely : Rely R) (h : Readable I R s tag view attr xs) (hs : I s) :
    Yields I R (fun r _ => ∃ ys, r = .ok ys ∧ ys.map tag = ((past key start xs).take max).map view)
      (collect key attr start max true [] xs) s := by
  induction xs with
  | nil => exact ⟨[], rfl, by simp [past]⟩
  | cons x xs ih =>
    have hrest : Readable I R s tag view attr xs := fun y hy => h y (List.mem_cons_of_mem _ hy)
    have hnil : ([] : List β).length ≤ max := Nat.zero_le _
    rw [collect, past]
    by_cases hx : key x = start
    · rw [if_pos hx, show (key x != start) = false by simp [hx]]
      exact collect_open hrely hrest hnil hs (hrely.refl s)
    · rw [if_neg hx, show (key x != start) = true by simp [hx]]
      exact ih hrest

/-- A page shows entries of the listing. -/
theorem collect_mem {acc : List β} {skip : Bool} {P : α → β → Prop} (hrely : Rely R)
    (h : ∀ x ∈ xs, ∀ t, I t → R s t → Yields I R (fun r _ => ∀ y, r = .ok (some y) → P x y) (attr x) t)
    (ht : I t) (hst : R s t) :
    Yields I R (fun r _ => ∀ ys, r = .ok ys → ∀ y ∈ ys, y ∈ acc ∨ ∃ x ∈ xs, P x y)
      (collect key attr start max skip acc xs) t := by
  induction xs generalizing acc skip t with
  | nil =>
    cases skip <;>
    · intro ys hys y hy
      cases hys
      exact .inl hy
  | cons x xs ih =>
    have hrest : ∀ z ∈ xs, ∀ t, I t → R s t → Yields I R (fun r _ => ∀ y, r = .ok (some y) → P z y) (attr z) t :=
      fun z hz => h z (List.mem_cons_of_mem _ hz)
    have htail : ∀ {acc' : List β} {skip' : Bool} {u : σ}, I u → R s u → (∀ y ∈ acc', y ∈ acc ∨ P x y) →
        Yields I R (fun r _ => ∀ ys, r = .ok ys → ∀ y ∈ ys, y ∈ acc ∨ ∃ x' ∈ x :: xs, P x' y)
          (collect key attr start max skip' acc' xs) u := by
      intro acc' skip' u hu hsu hacc
      refine (ih hrest hu hsu).mono fun r v hr ys hys y hy => ?_
      rcases hr ys hys y hy with hold | ⟨x', hx', hp⟩
      · exact (hacc y hold).imp_right fun hp => ⟨x, List.mem_cons_self, hp⟩
      · exact .inr ⟨x', List.mem_cons_of_mem _ hx', hp⟩
    cases skip with
    | true =>
      rw [collect]
      exact htail ht hst fun y hy => .inl hy
    | false =>
      rw [collect]
      split
      · intro ys hys y hy
        cases hys
        exact .inl hy
      · refine (h x List.mem_cons_self t ht hst).andThen hrely ht ?_ (fun e u _ _ _ ys he => by cases he)
        intro o u ho hu htu
        cases o with
        | none => exact htail hu (hrely.trans hst htu) fun y hy => .inl hy
        | some z =>
          refine htail hu (hrely.trans hst htu) fun y hy => ?_
          rcases List.mem_append.mp hy with hold | hnew
          · exact .inl hold
          · rw [List.mem_singleton.mp hnew]
            exact .inr (ho z rfl)

theorem readPage_mem {P : α → β → Prop} (hrely : Rely R)
    (h : ∀ x ∈ xs, ∀ t, I t → R s t → Yields I R (fun r _ => ∀ y, r = .ok (some y) → P x y) (attr x) t)
    (hs : I s) :
    Yields I R (fun r _ => ∀ page, r = .ok page → ∀ y ∈ page.1, ∃ x ∈ xs, P x y)
      (readPage key attr start max xs) s := by
  refine (collect_mem hrely h hs (hrely.refl s)).andThen hrely hs ?_ (fun e u _ _ _ ys he => by cases he)
  rintro ys t hys - - page hpage y hy
  cases hpage
  rcases hys ys rfl y hy with hnil | hx
  · cases hnil
  · exact hx

/-- When every entry can be read, a page is what is left, up to its size. -/
theorem readPage_yields (hrely : Rely R) (h : Readable I R s tag view attr xs) (hs : I s) :
    Yields I R (fun r _ => ∃ ys, r = .ok (ys, decide (ys.length < max) ||
        decide (xs.length ≤ skipCount key start xs + ys.length)) ∧
        ys.map tag = ((resume key start xs).take max).map view)
      (readPage key attr start max xs) s := by
  have hloop : Yields I R (fun r _ => ∃ ys, r = .ok ys ∧ ys.map tag = ((resume key start xs).take max).map view)
      (collect key attr start max (start != 0) [] xs) s := by
    have hnil : ([] : List β).length ≤ max := Nat.zero_le _
    unfold resume
    by_cases hz : start = 0
    · rw [if_pos hz, show (start != 0) = false by simp [hz]]
      exact collect_open hrely h hnil hs (hrely.refl s)
    · rw [if_neg hz, show (start != 0) = true by simp [hz]]
      exact collect_skipping hrely h hs
  apply Yields.bind
  refine hloop.mono ?_
  rintro r t ⟨ys, rfl, hys⟩
  exact ⟨ys, rfl, hys⟩

end Page

/-! ## Where a key resumes -/

section Resume

variable {key : α → Nat} {start max : Nat} {xs : List α}

/-- A page after `start` starts at position `a`, and is counted so. -/
def At (key : α → Nat) (start : Nat) (xs : List α) (a : Nat) : Prop :=
  resume key start xs = xs.drop a ∧ skipCount key start xs = a

theorem at_zero : At key 0 xs 0 := ⟨rfl, rfl⟩

/-- A key resumes behind the first entry that has it. -/
theorem past_append {pre post : List α} {x : α} (hx : key x = start) (hpre : ∀ y ∈ pre, key y ≠ start) :
    past key start (pre ++ x :: post) = post := by
  induction pre with
  | nil => exact if_pos hx
  | cons y pre ih =>
    rw [List.cons_append, past, if_neg (hpre y List.mem_cons_self)]
    exact ih fun z hz => hpre z (List.mem_cons_of_mem _ hz)

/-- The entry is the first of its key. -/
theorem at_append {pre post : List α} {x : α} (hz : start ≠ 0) (hx : key x = start)
    (hpre : ∀ y ∈ pre, key y ≠ start) : At key start (pre ++ x :: post) (pre.length + 1) := by
  constructor
  · unfold resume
    rw [if_neg hz, past_append hx hpre, ← List.drop_drop, List.drop_left]
    rfl
  · have hfind : (pre ++ x :: post).findIdx? (fun y => key y == start) = some pre.length := by
      rw [List.findIdx?_append, List.findIdx?_eq_none_iff.mpr (by simpa using hpre), List.findIdx?_cons]
      simp [hx]
    unfold skipCount
    rw [if_neg hz, hfind]

theorem at_of_first {x : α} {i : Nat} (hz : key x ≠ 0) (hx : xs[i]? = some x)
    (hfirst : ∀ j y, j < i → xs[j]? = some y → key y ≠ key x) : At key (key x) xs (i + 1) := by
  have hi : i < xs.length := (List.getElem?_eq_some_iff.mp hx).1
  have hsplit : xs = xs.take i ++ x :: xs.drop (i + 1) := by
    rw [← (List.getElem?_eq_some_iff.mp hx).2, ← List.drop_eq_getElem_cons hi, List.take_append_drop]
  have hpre : ∀ y ∈ xs.take i, key y ≠ key x := by
    intro y hy
    obtain ⟨j, hj, hyj⟩ := List.mem_take_iff_getElem.mp hy
    exact hfirst j y (by omega) (by rw [← hyj, List.getElem?_eq_getElem])
  have hlen : (xs.take i).length = i := by
    rw [List.length_take]
    omega
  have hat : At key (key x) (xs.take i ++ x :: xs.drop (i + 1)) ((xs.take i).length + 1) :=
    at_append hz rfl hpre
  rw [← hsplit, hlen] at hat
  exact hat

/-- The end of a page is told right. -/
theorem last_iff {ys : List β} {a : Nat} (h : At key start xs a)
    (hys : ys.length = ((resume key start xs).take max).length) (ha : a ≤ xs.length) :
    (decide (ys.length < max) || decide (xs.length ≤ skipCount key start xs + ys.length)) =
      decide (xs.length ≤ a + max) := by
  rw [h.1, List.length_take, List.length_drop] at hys
  rw [h.2, ← Bool.decide_or, decide_eq_decide]
  omega

end Resume

/-! ## A client -/

/-- Where the page after the first `n` starts, if each is full. -/
def pos (sizes : Nat → Nat) (n : Nat) : Nat := ∑ i ∈ Finset.range n, sizes i

/-- The pages, each with the keys and names of its entries: the client stops at the first that is said to be
the last, and has seen every name then, each once and in order. -/
def Complete (p : Nat → List (Nat × ν) × Bool) (names : List ν) : Prop :=
  ∃ n, (∀ i < n, (p i).2 = false) ∧ (p n).2 = true ∧
    ((List.range (n + 1)).flatMap fun i => (p i).1.map Prod.snd) = names

/-- `p` is what a client of the given page sizes is answered. `shown` is what it is shown of an entry. -/
structure Served (key : α → Nat) (tr : Nat → Nat) (shown : α → Nat × ν) (xs : List α) (sizes : Nat → Nat)
    (start : Nat → Nat) (p : Nat → List (Nat × ν) × Bool) : Prop where
  first : tr (start 0) = 0
  next : ∀ n e, (p n).1.getLast? = some e → start (n + 1) = e.1
  page : ∀ n, (p n).1 = ((resume key (tr (start n)) xs).take (sizes n)).map shown
  last : ∀ n, (p n).2 = (decide ((p n).1.length < sizes n) ||
    decide (xs.length ≤ skipCount key (tr (start n)) xs + (p n).1.length))

section Client

variable {key : α → Nat} {tr : Nat → Nat} {shown : α → Nat × ν} {xs : List α} {sizes start : Nat → Nat}
variable {p : Nat → List (Nat × ν) × Bool} {n k : Nat}

theorem pos_succ (sizes : Nat → Nat) (n : Nat) : pos sizes (n + 1) = pos sizes n + sizes n :=
  Finset.sum_range_succ sizes n

theorem le_pos (hpos : ∀ n, 0 < sizes n) (n : Nat) : n ≤ pos sizes n := by
  induction n with
  | zero => exact Nat.zero_le _
  | succ n ih =>
    have := hpos n
    rw [pos_succ]
    omega

theorem pos_mono (sizes : Nat → Nat) {m n : Nat} (h : m ≤ n) : pos sizes m ≤ pos sizes n :=
  Finset.sum_le_sum_of_subset (by simpa using h)

/-- The server resumes behind the last entry of the `n`-th page. -/
def Resumes (key : α → Nat) (tr : Nat → Nat) (shown : α → Nat × ν) (xs : List α) (sizes : Nat → Nat)
    (n : Nat) : Prop :=
  ∀ x, xs[pos sizes n - 1]? = some x → At key (tr (shown x).1) xs (pos sizes n)

/-- A page that starts in its place. -/
theorem Served.page_at (h : Served key tr shown xs sizes start p) (hn : pos sizes n ≤ xs.length)
    (hat : At key (tr (start n)) xs (pos sizes n)) :
    p n = (((xs.drop (pos sizes n)).take (sizes n)).map shown, decide (xs.length ≤ pos sizes (n + 1))) := by
  have hpage := h.page n
  have hlen : (p n).1.length = ((resume key (tr (start n)) xs).take (sizes n)).length := by
    rw [hpage, List.length_map]
  ext1
  · rw [hpage, hat.1]
  · rw [h.last n, last_iff hat hlen hn, pos_succ]

/-- After a page in its place the client asks after the entry in front of the next one. -/
theorem Served.start_succ (h : Served key tr shown xs sizes start p) (hpos : ∀ n, 0 < sizes n)
    (hat : At key (tr (start n)) xs (pos sizes n)) (hn : pos sizes (n + 1) < xs.length) {x : α}
    (hx : xs[pos sizes (n + 1) - 1]? = some x) : start (n + 1) = (shown x).1 := by
  have hsize := hpos n
  rw [pos_succ] at hn
  have hlast : (p n).1.getLast? = some (shown x) := by
    rw [h.page_at (by omega) hat, List.getLast?_map, List.getLast?_eq_getElem?, List.length_take,
      List.length_drop, Nat.min_eq_left (by omega), List.getElem?_take_of_lt (by omega), List.getElem?_drop,
      show pos sizes n + (sizes n - 1) = pos sizes (n + 1) - 1 by rw [pos_succ]; omega, hx]
    rfl
  exact h.next n _ hlast

/-- Each page starts in its place as long as those before it resumed. -/
theorem Served.at_pos (h : Served key tr shown xs sizes start p) (hpos : ∀ n, 0 < sizes n)
    (hres : ∀ m, 0 < m → m ≤ n → Resumes key tr shown xs sizes m) (hn : pos sizes n < xs.length) :
    At key (tr (start n)) xs (pos sizes n) := by
  induction n with
  | zero =>
    rw [h.first]
    exact at_zero
  | succ n ih =>
    have hlt : pos sizes n < xs.length := Nat.lt_of_le_of_lt (pos_mono sizes (Nat.le_succ n)) hn
    have hat := ih (fun m hm hmn => hres m hm (by omega)) hlt
    obtain ⟨x, hx⟩ : ∃ x, xs[pos sizes (n + 1) - 1]? = some x :=
      ⟨_, List.getElem?_eq_getElem (by omega)⟩
    rw [h.start_succ hpos hat hn hx]
    exact hres (n + 1) (Nat.succ_pos n) (Nat.le_refl _) x hx

/-- The names of the first pages. -/
theorem Served.names_take (h : Served key tr shown xs sizes start p) (hpos : ∀ n, 0 < sizes n)
    (hres : ∀ m, 0 < m → m < n → Resumes key tr shown xs sizes m)
    (hn : ∀ m, m < n → pos sizes m < xs.length) :
    ((List.range n).flatMap fun i => (p i).1.map Prod.snd) =
      (xs.take (pos sizes n)).map fun x => (shown x).2 := by
  induction n with
  | zero => simp [pos]
  | succ n ih =>
    have hlt := hn n (Nat.lt_succ_self n)
    have hat := h.at_pos hpos (fun m hm hmn => hres m hm (by omega)) hlt
    rw [List.range_succ, List.flatMap_append, ih (fun m hm hmn => hres m hm (by omega)) fun m hm => hn m (by omega),
      List.flatMap_singleton, h.page_at (Nat.le_of_lt hlt) hat, pos_succ, List.take_add, List.map_append, List.map_map]
    rfl

/-- Once every page resumes where the next one has to start, the pages are the listing. -/
theorem complete_of_resumes (h : Served key tr shown xs sizes start p) (hpos : ∀ n, 0 < sizes n)
    (hne : xs ≠ []) (hres : ∀ m, 0 < m → pos sizes m < xs.length → Resumes key tr shown xs sizes m) :
    Complete p (xs.map fun x => (shown x).2) := by
  have hex : ∃ n, xs.length ≤ pos sizes (n + 1) :=
    ⟨xs.length, Nat.le_trans (Nat.le_succ _) (le_pos hpos _)⟩
  classical
  -- The last page is the first that reaches the end.
  let n := Nat.find hex
  have hbefore : ∀ m, m < n + 1 → pos sizes m < xs.length := by
    intro m hm
    cases m with
    | zero => simpa [pos] using List.length_pos_iff.mpr hne
    | succ m => exact Nat.lt_of_not_le (Nat.find_min hex (Nat.lt_of_succ_lt_succ hm))
  have hpage : ∀ m, m ≤ n → (p m).2 = decide (xs.length ≤ pos sizes (m + 1)) := by
    intro m hm
    have hlt := hbefore m (by omega)
    have hat := h.at_pos hpos (fun j hj hjm => hres j hj (hbefore j (by omega))) hlt
    rw [h.page_at (Nat.le_of_lt hlt) hat]
  refine ⟨n, fun i hi => ?_, ?_, ?_⟩
  · rw [hpage i (Nat.le_of_lt hi), decide_eq_false_iff_not]
    exact Nat.find_min hex hi
  · rw [hpage n (Nat.le_refl _), decide_eq_true_iff]
    exact Nat.find_spec hex
  · rw [h.names_take hpos (fun m hm hmn => hres m hm (hbefore m hmn)) hbefore,
      List.take_of_length_le (Nat.find_spec hex)]

/-- Once a page resumes with an entry of another name than the one that comes next, they are not. -/
theorem not_complete (h : Served key tr shown xs sizes start p) (hpos : ∀ n, 0 < sizes n) (hk : 0 < k)
    (hlt : pos sizes k < xs.length) (hres : ∀ m, 0 < m → m < k → Resumes key tr shown xs sizes m)
    {x y z : α} {ys : List α} (hx : xs[pos sizes k - 1]? = some x) (hz : xs[pos sizes k]? = some z)
    (hy : resume key (tr (shown x).1) xs = y :: ys) (hyz : (shown y).2 ≠ (shown z).2) :
    ¬ Complete p (xs.map fun x => (shown x).2) := by
  rintro ⟨n, hfalse, htrue, hnames⟩
  have hbefore : ∀ m, m ≤ k → pos sizes m < xs.length :=
    fun m hm => Nat.lt_of_le_of_lt (pos_mono sizes hm) hlt
  have hat : ∀ m, m < k → At key (tr (start m)) xs (pos sizes m) :=
    fun m hm => h.at_pos hpos (fun j hj hjm => hres j hj (by omega)) (hbefore m (Nat.le_of_lt hm))
  -- The client is not told to stop before it asks after `x`.
  have hkn : k ≤ n := by
    by_contra hnk
    rw [h.page_at (Nat.le_of_lt (hbefore n (by omega))) (hat n (by omega)), decide_eq_true_iff] at htrue
    have := hbefore (n + 1) (by omega)
    omega
  obtain ⟨j, rfl⟩ : ∃ j, k = j + 1 := ⟨k - 1, by omega⟩
  have hpage : (p (j + 1)).1 = shown y :: (ys.take (sizes (j + 1) - 1)).map shown := by
    have hsize := hpos (j + 1)
    rw [h.page, h.start_succ hpos (hat j (Nat.lt_succ_self j)) hlt hx, hy,
      show sizes (j + 1) = (sizes (j + 1) - 1) + 1 by omega, List.take_succ_cons, List.map_cons]
    rfl
  obtain ⟨d, rfl⟩ : ∃ d, n = j + 1 + d := ⟨n - (j + 1), by omega⟩
  have hsplit : List.range (j + 1 + d + 1) = List.range (j + 1) ++ (List.range (d + 1)).map (j + 1 + ·) := by
    rw [Nat.add_assoc (j + 1), List.range_add]
  rw [hsplit, List.flatMap_append, h.names_take hpos hres fun m hm => hbefore m (Nat.le_of_lt hm),
    List.range_succ_eq_map, List.map_cons, List.flatMap_cons, Nat.add_zero, hpage] at hnames
  have hplace := congrArg (·[pos sizes (j + 1)]?) hnames
  simp [Nat.min_eq_left (Nat.le_of_lt hlt), hz] at hplace
  exact hyz hplace

/-- A server that resumes after every entry but one: the pages are the listing unless one ends there. -/
theorem complete_iff (h : Served key tr shown xs sizes start p) (hpos : ∀ n, 0 < sizes n) (hne : xs ≠ [])
    {b : Nat} (hb : 0 < b)
    (hres : ∀ m, 0 < m → pos sizes m < xs.length → pos sizes m ≠ b → Resumes key tr shown xs sizes m)
    (hbad : ∀ x z, xs[b - 1]? = some x → xs[b]? = some z →
      ∃ y ys, resume key (tr (shown x).1) xs = y :: ys ∧ (shown y).2 ≠ (shown z).2) :
    Complete p (xs.map fun x => (shown x).2) ↔ xs.length ≤ b ∨ ∀ n, pos sizes n ≠ b := by
  constructor
  · intro hcomp
    by_contra hcon
    push Not at hcon
    obtain ⟨hlen, k, hk⟩ := hcon
    obtain ⟨x, hx⟩ : ∃ x, xs[b - 1]? = some x := ⟨_, List.getElem?_eq_getElem (by omega)⟩
    obtain ⟨z, hz⟩ : ∃ z, xs[b]? = some z := ⟨_, List.getElem?_eq_getElem hlen⟩
    obtain ⟨y, ys, hy, hyz⟩ := hbad x z hx hz
    have hk0 : 0 < k := by
      rcases Nat.eq_zero_or_pos k with rfl | hk0
      · simp [pos] at hk
        omega
      · exact hk0
    have hbefore : ∀ m, 0 < m → m < k → Resumes key tr shown xs sizes m := by
      intro m hm hmk
      have hlt : pos sizes m < b := by
        have hstep := pos_mono sizes (Nat.succ_le_of_lt hmk)
        have hsize := hpos m
        rw [Nat.succ_eq_add_one, pos_succ] at hstep
        omega
      exact hres m hm (by omega) (Nat.ne_of_lt hlt)
    subst hk
    exact not_complete h hpos hk0 hlen hbefore hx hz hy hyz hcomp
  · intro hcond
    refine complete_of_resumes h hpos hne fun m hm hlt => hres m hm hlt ?_
    rcases hcond with hlen | hnever
    · omega
    · exact hnever m

end Client

end Paging
