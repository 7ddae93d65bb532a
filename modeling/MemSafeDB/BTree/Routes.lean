import MemSafeDB.BTree.Update

/-!
# Children of inner nodes

The separators of an inner node cut the interval of its fences into the intervals of its
children. `View.routes` lists them in slot order, ending with `upperInnerNode`; the child that
a search descends to is the one whose interval contains the key.
-/

namespace MemSafeDB
open Lib

/-- A child with the interval of keys it is responsible for. -/
structure Route where
  lower : Key
  upper : Key
  pid : PID
  deriving DecidableEq

/-- The interval of a child ends before that of the next one begins. -/
def Route.Before (r s : Route) : Prop := r.upper ≠ [] ∧ r.upper ≤ s.lower

/-- The last separator, or the lower fence when there is none. -/
def lastBound (lower : Key) : List (Key × Key) → Key
  | [] => lower
  | e :: es => lastBound e.1 es

/-- The children of the slots. -/
def slotRoutes (lower : Key) : List (Key × Key) → List Route
  | [] => []
  | e :: es => ⟨lower, e.1, loadPID e.2⟩ :: slotRoutes e.1 es

@[simp] lemma lastBound_append (lower : Key) (es fs : List (Key × Key)) :
    lastBound lower (es ++ fs) = lastBound (lastBound lower es) fs := by
  induction es generalizing lower with
  | nil => rfl
  | cons e es ih => exact ih e.1

@[simp] lemma slotRoutes_append (lower : Key) (es fs : List (Key × Key)) :
    slotRoutes lower (es ++ fs) = slotRoutes lower es ++ slotRoutes (lastBound lower es) fs := by
  induction es generalizing lower with
  | nil => rfl
  | cons e es ih =>
    simp only [List.cons_append, slotRoutes, lastBound]
    rw [ih]

@[simp] lemma length_slotRoutes (lower : Key) (es : List (Key × Key)) :
    (slotRoutes lower es).length = es.length := by
  induction es generalizing lower with
  | nil => rfl
  | cons e es ih => simp [slotRoutes, ih]

lemma lastBound_eq (lower : Key) (es : List (Key × Key)) :
    lastBound lower es = lower ∨ ∃ e ∈ es, lastBound lower es = e.1 := by
  induction es generalizing lower with
  | nil => exact Or.inl rfl
  | cons e es ih =>
    rcases ih e.1 with h | ⟨f, hf, h⟩
    · exact Or.inr ⟨e, List.mem_cons_self .., h⟩
    · exact Or.inr ⟨f, List.mem_cons_of_mem _ hf, h⟩

lemma pid_roundtrip {pid : PID} (h : pid < 2 ^ 64) : loadPID (pidBytes pid) = pid := by
  apply ofLE_toLE
  have hpow : 256 ^ 8 = 2 ^ 64 := by norm_num
  omega

@[simp] lemma length_pidBytes (pid : PID) : (pidBytes pid).length = 8 := length_toLE 8 pid

namespace View

/-- The children with their intervals, in slot order and ending with `upperInnerNode`. -/
def routes (v : View) : List Route :=
  slotRoutes v.lower v.entries ++ [⟨lastBound v.lower v.entries, v.upper, v.link⟩]

/-- The child that a search for `k` descends to. -/
def childFor (v : View) (k : Key) : PID :=
  match v.entries[rank v.keys k]? with
  | some e => loadPID e.2
  | none => v.link

lemma mem_slotRoutes_iff {lower : Key} {es : List (Key × Key)} {r : Route} :
    r ∈ slotRoutes lower es ↔
      ∃ fs e gs, es = fs ++ e :: gs ∧ r = ⟨lastBound lower fs, e.1, loadPID e.2⟩ := by
  induction es generalizing lower with
  | nil => simp [slotRoutes]
  | cons a es ih =>
    simp only [slotRoutes, List.mem_cons, ih]
    constructor
    · rintro (rfl | ⟨fs, e, gs, rfl, rfl⟩)
      · exact ⟨[], a, es, rfl, rfl⟩
      · exact ⟨a :: fs, e, gs, rfl, rfl⟩
    · rintro ⟨fs, e, gs, heq, rfl⟩
      cases fs with
      | nil =>
        obtain ⟨rfl, rfl⟩ := List.cons.inj heq
        exact Or.inl rfl
      | cons b fs =>
        obtain ⟨rfl, rfl⟩ := List.cons.inj heq
        exact Or.inr ⟨fs, e, gs, rfl, rfl⟩

/-- A child sits between the entries before it and the entries from its separator on. -/
lemma mem_routes_iff {v : View} {r : Route} : r ∈ v.routes ↔
    (∃ es e fs, v.entries = es ++ e :: fs ∧ r = ⟨lastBound v.lower es, e.1, loadPID e.2⟩) ∨
      r = ⟨lastBound v.lower v.entries, v.upper, v.link⟩ := by
  rw [routes, List.mem_append, mem_slotRoutes_iff, List.mem_singleton]

variable {limit : Nat}

lemma Ok.key_ne_nil {v : View} (hv : v.Ok limit) (hl : v.isLeaf = false) {e : Key × Key}
    (he : e ∈ v.entries) : e.1 ≠ [] := by
  have h := hv.entryOk e he
  simp only [EntryOk, hl, Bool.false_eq_true, ite_false] at h
  exact h.1

/-- The entries before a place are below those from there on. -/
lemma Ok.lt_of_append {v : View} (hv : v.Ok limit) {es fs : List (Key × Key)}
    (h : v.entries = es ++ fs) {e f : Key × Key} (he : e ∈ es) (hf : f ∈ fs) : e.1 < f.1 := by
  have hs := hv.sorted
  rw [keys, h, List.map_append, StrictSorted, List.pairwise_append] at hs
  exact hs.2.2 _ (List.mem_map_of_mem he) _ (List.mem_map_of_mem hf)

/-- Keys up to a place are not above the bound of that place. -/
lemma Ok.le_lastBound {v : View} (hv : v.Ok limit) {es fs : List (Key × Key)}
    (h : v.entries = es ++ fs) {e : Key × Key} (he : e ∈ es) : e.1 ≤ lastBound v.lower es := by
  obtain ⟨gs, g, hg⟩ := List.eq_nil_or_concat es |>.resolve_left (List.ne_nil_of_mem he)
  subst hg
  rw [List.concat_eq_append] at he h ⊢
  rw [lastBound_append]
  change e.1 ≤ g.1
  rcases List.mem_append.mp he with he | he
  · rw [List.append_assoc] at h
    exact (hv.lt_of_append h he (List.mem_append_left _ (List.mem_singleton_self g))).le
  · rw [List.mem_singleton.mp he]

lemma rank_append {v : View} {es fs : List (Key × Key)} (h : v.entries = es ++ fs) {k : Key}
    (h1 : ∀ e ∈ es, e.1 < k) (h2 : ∀ e ∈ fs, k ≤ e.1) : rank v.keys k = es.length := by
  have hkeys : v.keys = es.map Prod.fst ++ fs.map Prod.fst := by rw [keys, h, List.map_append]
  rw [hkeys]
  apply rank_eq_of_split (by simp)
  · intro i hi hlt
    rw [List.getElem_append_left (by simpa using hlt), List.getElem_map]
    exact h1 _ (List.getElem_mem _)
  · intro i hi hge
    rw [List.getElem_append_right (by simpa using hge), List.getElem_map]
    exact h2 _ (List.getElem_mem _)

/-- The entries split at the place of a key. -/
lemma Ok.split_at {v : View} (hv : v.Ok limit) (k : Key) :
    ∃ es fs, v.entries = es ++ fs ∧ rank v.keys k = es.length ∧ (∀ e ∈ es, e.1 < k) ∧
      ∀ e ∈ fs, k ≤ e.1 := by
  have hr : rank v.keys k ≤ v.entries.length := by simpa using rank_le_length v.keys k
  refine ⟨v.entries.take (rank v.keys k), v.entries.drop (rank v.keys k),
    (List.take_append_drop _ _).symm, by simp [hr], ?_, ?_⟩
  · intro e he
    obtain ⟨i, hi, rfl⟩ := List.mem_iff_getElem.mp he
    have hi' : i < rank v.keys k ∧ i < v.keys.length := by
      simp only [List.length_take] at hi
      simp only [length_keys]
      omega
    have hlt := hv.sorted.lt_of_lt_rank hi'.2 hi'.1
    simpa [keys] using hlt
  · intro e he
    obtain ⟨i, hi, rfl⟩ := List.mem_iff_getElem.mp he
    have hi' : rank v.keys k + i < v.keys.length := by
      simp only [List.length_drop] at hi
      simp only [length_keys]
      omega
    have hle := hv.sorted.le_of_rank_le hi' (Nat.le_add_right _ _)
    simpa [keys] using hle

lemma lastBound_below {lower k : Key} (hk : lower = [] ∨ lower < k) {es : List (Key × Key)}
    (h1 : ∀ e ∈ es, e.1 < k) : lastBound lower es = [] ∨ lastBound lower es < k := by
  rcases lastBound_eq lower es with heq | ⟨e, he, heq⟩
  · rw [heq]
    exact hk
  · rw [heq]
    exact Or.inr (h1 e he)

/-- A search descends to a child whose interval contains the key. -/
lemma Ok.route_childFor {v : View} (hv : v.Ok limit) {k : Key}
    (hk : InRange v.lower v.upper k) :
    ∃ r ∈ v.routes, r.pid = v.childFor k ∧ InRange r.lower r.upper k := by
  obtain ⟨es, fs, hsplit, hrank, h1, h2⟩ := hv.split_at k
  have hlow := lastBound_below hk.1 h1
  cases fs with
  | nil =>
    rw [List.append_nil] at hsplit
    refine ⟨_, mem_routes_iff.mpr (Or.inr rfl), ?_, ?_⟩
    · rw [childFor, hrank, hsplit, List.getElem?_eq_none le_rfl]
    · rw [hsplit]
      exact ⟨hlow, hk.2⟩
  | cons e fs =>
    refine ⟨_, mem_routes_iff.mpr (Or.inl ⟨es, e, fs, hsplit, rfl⟩), ?_, hlow,
      Or.inr (h2 e (List.mem_cons_self ..))⟩
    rw [childFor, hrank, hsplit, List.getElem?_append_right le_rfl, Nat.sub_self,
      List.getElem?_cons_zero]

/-- The child whose interval contains the key is the one that a search descends to. -/
lemma Ok.childFor_eq {v : View} (hv : v.Ok limit) (hl : v.isLeaf = false) {r : Route}
    (hr : r ∈ v.routes) {k : Key} (hk : InRange r.lower r.upper k) : v.childFor k = r.pid := by
  have hbefore : ∀ es fs, v.entries = es ++ fs → (lastBound v.lower es = [] ∨ lastBound v.lower es < k) →
      ∀ e ∈ es, e.1 < k := by
    intro es fs h hb e he
    have hle := hv.le_lastBound h he
    rcases hb with hb | hb
    · rw [hb] at hle
      have hne := hv.key_ne_nil hl (h ▸ List.mem_append_left fs he)
      exact absurd (le_antisymm hle (nil_le _)) hne
    · exact hle.trans_lt hb
  rcases mem_routes_iff.mp hr with ⟨es, e, fs, hsplit, rfl⟩ | rfl
  · have hlt := hbefore es _ hsplit hk.1
    have hne := hv.key_ne_nil hl (hsplit ▸ List.mem_append_right es (List.mem_cons_self ..))
    have hle : k ≤ e.1 := hk.2.resolve_left hne
    have hrank := rank_append hsplit hlt (by
      intro f hf
      rcases List.mem_cons.mp hf with rfl | hf
      · exact hle
      · have hsplit' : v.entries = (es ++ [e]) ++ fs := by simp [hsplit]
        exact hle.trans (hv.lt_of_append hsplit' (by simp) hf).le)
    rw [childFor, hrank, hsplit, List.getElem?_append_right le_rfl, Nat.sub_self,
      List.getElem?_cons_zero]
  · have hlt := hbefore v.entries [] (by simp) hk.1
    have hrank := rank_append (show v.entries = v.entries ++ [] by simp) hlt (by simp)
    rw [childFor, hrank, List.getElem?_eq_none le_rfl]

/-- The interval of a child lies in the interval of the node. -/
lemma Ok.route_subset {v : View} (hv : v.Ok limit) (hl : v.isLeaf = false) {r : Route}
    (hr : r ∈ v.routes) {k : Key} (hk : InRange r.lower r.upper k) :
    InRange v.lower v.upper k := by
  have hlow : ∀ es fs, v.entries = es ++ fs → (lastBound v.lower es = [] ∨ lastBound v.lower es < k) →
      (v.lower = [] ∨ v.lower < k) := by
    intro es fs h hb
    rcases lastBound_eq v.lower es with heq | ⟨e, he, heq⟩
    · rwa [heq] at hb
    · have he' : e ∈ v.entries := h ▸ List.mem_append_left fs he
      rw [heq] at hb
      have hlt := hb.resolve_left (hv.key_ne_nil hl he')
      exact (hv.entry_inRange he').1.imp_right (fun h => h.trans hlt)
  rcases mem_routes_iff.mp hr with ⟨es, e, fs, hsplit, rfl⟩ | rfl
  · have he : e ∈ v.entries := hsplit ▸ List.mem_append_right es (List.mem_cons_self ..)
    have hle : k ≤ e.1 := hk.2.resolve_left (hv.key_ne_nil hl he)
    exact ⟨hlow es _ hsplit hk.1, (hv.entry_inRange he).2.imp_right (fun h => hle.trans h)⟩
  · exact ⟨hlow v.entries [] (by simp) hk.1, hk.2⟩

/-! ### The order of the children -/

lemma lower_le_of_mem_routes {lower upper : Key} {link : PID} {es : List (Key × Key)}
    (hs : StrictSorted (es.map Prod.fst)) (hl : ∀ e ∈ es, lower ≤ e.1) {r : Route}
    (hr : r ∈ slotRoutes lower es ++ [Route.mk (lastBound lower es) upper link]) : lower ≤ r.lower := by
  induction es generalizing lower with
  | nil =>
    rw [List.mem_singleton.mp hr]
    exact le_rfl
  | cons e es ih =>
    obtain ⟨he, hs'⟩ := List.pairwise_cons.mp hs
    rcases List.mem_cons.mp hr with rfl | hr
    · exact le_rfl
    · have hle := ih hs' (fun f hf => (he f.1 (List.mem_map_of_mem hf)).le) hr
      exact (hl e (List.mem_cons_self ..)).trans hle

lemma slotRoutes_pairwise {lower upper : Key} {link : PID} {es : List (Key × Key)}
    (hs : StrictSorted (es.map Prod.fst)) (hne : ∀ e ∈ es, e.1 ≠ []) :
    (slotRoutes lower es ++ [Route.mk (lastBound lower es) upper link]).Pairwise Route.Before := by
  induction es generalizing lower with
  | nil => exact List.pairwise_singleton _ _
  | cons e es ih =>
    obtain ⟨he, hs'⟩ := List.pairwise_cons.mp hs
    refine List.pairwise_cons.mpr ⟨?_, ih hs' (fun f hf => hne f (List.mem_cons_of_mem _ hf))⟩
    intro r hr
    exact ⟨hne e (List.mem_cons_self ..),
      lower_le_of_mem_routes hs' (fun f hf => (he f.1 (List.mem_map_of_mem hf)).le) hr⟩

lemma Ok.routes_pairwise {v : View} (hv : v.Ok limit) (hl : v.isLeaf = false) :
    v.routes.Pairwise Route.Before :=
  slotRoutes_pairwise hv.sorted (fun _ he => hv.key_ne_nil hl he)

end View

/-! ### Changing the children -/

/-- The child at a place, and the children behind it. -/
def routesFrom (lower : Key) (es : List (Key × Key)) (upper : Key) (link : PID) : List Route :=
  slotRoutes lower es ++ [⟨lastBound lower es, upper, link⟩]

lemma routesFrom_append (lower : Key) (es fs : List (Key × Key)) (upper : Key) (link : PID) :
    routesFrom lower (es ++ fs) upper link =
      slotRoutes lower es ++ routesFrom (lastBound lower es) fs upper link := by
  simp [routesFrom]

lemma View.routes_eq (v : View) : v.routes = routesFrom v.lower v.entries v.upper v.link := rfl

/-- The interval and the page of the first child. -/
def headUpper (es : List (Key × Key)) (upper : Key) : Key := (es.head?.map Prod.fst).getD upper

def headPid (es : List (Key × Key)) (link : PID) : PID :=
  (es.head?.map (fun e => loadPID e.2)).getD link

def tailRoutes (es : List (Key × Key)) (upper : Key) (link : PID) : List Route :=
  match es with
  | [] => []
  | e :: es => routesFrom e.1 es upper link

lemma routesFrom_eq_cons (lower : Key) (es : List (Key × Key)) (upper : Key) (link : PID) :
    routesFrom lower es upper link =
      ⟨lower, headUpper es upper, headPid es link⟩ :: tailRoutes es upper link := by
  cases es <;> rfl

end MemSafeDB
