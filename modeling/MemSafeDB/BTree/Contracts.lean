import MemSafeDB.BTree.Merge
import MemSafeDB.BTree.Readers

/-!
# What splits and merges do to the parent

A child owns the interval of its fences in the parent. A split cuts the interval at the
separator, a merge joins the intervals of two neighbours, and every other key takes the same
way as before.
-/

namespace MemSafeDB
open Lib

/-! ## Keys and children -/

namespace View

variable {v : View} {k : Key} {limit : Nat}

/-- The intervals of two children do not overlap. -/
lemma Ok.route_unique (hv : v.Ok limit) (hl : v.isLeaf = false) {r s : Route} (hr : r ∈ v.routes)
    (hs : s ∈ v.routes) (hkr : InRange r.lower r.upper k) (hks : InRange s.lower s.upper k) :
    r = s := by
  have happart : ∀ a b : Route, a.Before b → InRange a.lower a.upper k →
      InRange b.lower b.upper k → False := by
    rintro a b ⟨hne, hle⟩ ha hb
    have hka : k ≤ a.upper := ha.2.resolve_left hne
    rcases hb.1 with h0 | hlt
    · rw [h0] at hle
      exact hne (le_antisymm hle (nil_le _))
    · exact lt_irrefl _ ((hka.trans hle).trans_lt hlt)
  have hpair : v.routes.Pairwise (fun a b =>
      InRange a.lower a.upper k → InRange b.lower b.upper k → a = b) :=
    (hv.routes_pairwise hl).imp (fun hab ha hb => (happart _ _ hab ha hb).elim)
  have hflip : v.routes.Pairwise (flip (fun a b =>
      InRange a.lower a.upper k → InRange b.lower b.upper k → a = b)) :=
    (hv.routes_pairwise hl).imp (fun hab hb ha => (happart _ _ hab ha hb).elim)
  exact hpair.forall_of_forall_of_flip (fun _ _ _ _ => rfl) hflip hr hs hkr hks

/-- A key below the interval of the node descends to the first child. -/
lemma Ok.childFor_below (hv : v.Ok limit) (hk : k ≤ v.lower) :
    v.childFor k = headPid v.entries v.link := by
  have hsplit : v.entries = [] ++ v.entries := rfl
  have hrank : rank v.keys k = 0 := rank_append hsplit (by simp) (fun f hf =>
    hk.trans (hv.entry_inRange hf).lower_le)
  rw [childFor, hrank, headPid, List.head?_eq_getElem?]
  cases v.entries[0]? <;> rfl

/-- A key above the interval of the node descends to the last child. -/
lemma Ok.childFor_above (hv : v.Ok limit) (hu : v.upper ≠ []) (hk : v.upper < k) :
    v.childFor k = v.link := by
  have hsplit : v.entries = v.entries ++ [] := (List.append_nil v.entries).symm
  have hrank := rank_append hsplit (fun e he =>
    ((hv.entry_inRange he).2.resolve_left hu).trans_lt hk) (by simp)
  rw [childFor, hrank, List.getElem?_eq_none le_rfl]

lemma not_inRange {lower upper : Key} (h : ¬InRange lower upper k) :
    k ≤ lower ∨ upper ≠ [] ∧ upper < k := by
  by_contra hc
  push Not at hc
  refine h ⟨Or.inr hc.1, ?_⟩
  by_cases hu : upper = []
  · exact Or.inl hu
  · exact Or.inr (hc.2 hu)

lemma Ok.loadPID_lt (hv : v.Ok limit) (hl : v.isLeaf = false) {e : Key × Key} (he : e ∈ v.entries) :
    loadPID e.2 < 2 ^ 64 := by
  have hok := hv.entryOk e he
  simp only [EntryOk, hl, Bool.false_eq_true, ite_false] at hok
  have hlt := ofLE_lt e.2
  rw [hok.2.2] at hlt
  exact hlt

/-- The upper fence of a child is its separator, or the upper fence of the node. -/
lemma Ok.route_upper (hv : v.Ok limit) (hl : v.isLeaf = false) {r : Route} (hr : r ∈ v.routes) :
    r.upper = v.upper ∨ r.upper ≠ [] ∧ (v.upper = [] ∨ r.upper < v.upper) := by
  rcases mem_routes_iff.mp hr with ⟨es, e, fs, hsplit, rfl⟩ | rfl
  · have he : e ∈ v.entries := hsplit ▸ List.mem_append_right es (List.mem_cons_self ..)
    exact Or.inr ⟨hv.key_ne_nil hl he, (hv.admits _ (List.mem_map_of_mem he)).2 hl⟩
  · exact Or.inl rfl

/-- Only the last child ends where the node does. -/
lemma Ok.route_last (hv : v.Ok limit) (hl : v.isLeaf = false) {pre post : List Route} {r : Route}
    (h : v.routes = pre ++ r :: post) : post = [] ↔ r.upper = v.upper := by
  constructor
  · rintro rfl
    have hlast := (List.append_inj' h rfl).2
    rw [← (List.cons.inj hlast).1]
  · intro hup
    by_contra hne
    obtain ⟨init, s, rfl⟩ := List.eq_nil_or_concat post |>.resolve_left hne
    have hslots : slotRoutes v.lower v.entries ++ [⟨lastBound v.lower v.entries, v.upper, v.link⟩] =
        (pre ++ r :: init) ++ [s] := by
      rw [List.append_assoc, List.cons_append]
      rwa [List.concat_eq_append] at h
    have hr : r ∈ slotRoutes v.lower v.entries := by
      rw [(List.append_inj' hslots rfl).1]
      simp
    obtain ⟨es, e, fs, hsplit, rfl⟩ := mem_slotRoutes_iff.mp hr
    have he : e ∈ v.entries := hsplit ▸ List.mem_append_right es (List.mem_cons_self ..)
    rcases (hv.admits _ (List.mem_map_of_mem he)).2 hl with hnil | hlt
    · exact hv.key_ne_nil hl he (hup.trans hnil)
    · exact hlt.ne hup

lemma head_routes (v : View) : v.routes.head?.map Route.pid = some (headPid v.entries v.link) := by
  rw [routes_eq, routesFrom_eq_cons]
  rfl

lemma last_routes (v : View) : v.routes.getLast?.map Route.pid = some v.link := by
  simp [routes]

section Cut
variable {w : View} {pre post : List Route} {lower sep upper : Key} {pid newPID : PID}

/-- When a child is cut in two, only keys of its own take another way, and keys above the whole
node if it is the last child. -/
lemma Ok.childFor_cut (hv : v.Ok limit) (hl : v.isLeaf = false) (hw : w.Ok limit)
    (hl' : w.isLeaf = false)
    (hr : v.routes = pre ++ ⟨lower, upper, pid⟩ :: post)
    (hr' : w.routes = pre ++ ⟨lower, sep, pid⟩ :: ⟨sep, upper, newPID⟩ :: post)
    (hlow : w.lower = v.lower) (hup : w.upper = v.upper) (hnot : ¬InRange lower upper k)
    (hlast : ¬(upper = v.upper ∧ v.upper ≠ [] ∧ v.upper < k)) : w.childFor k = v.childFor k := by
  by_cases hk : InRange v.lower v.upper k
  · obtain ⟨r, hmem, hpid, hkr⟩ := hv.route_childFor hk
    have hmem' : r ∈ w.routes := by
      rw [hr] at hmem
      rw [hr']
      rcases List.mem_append.mp hmem with hmem | hmem
      · exact List.mem_append_left _ hmem
      · rcases List.mem_cons.mp hmem with rfl | hmem
        · exact absurd hkr hnot
        · exact List.mem_append_right _ (List.mem_cons_of_mem _ (List.mem_cons_of_mem _ hmem))
    rw [← hpid, hw.childFor_eq hl' hmem' hkr]
  · rcases not_inRange hk with hbelow | ⟨hne, habove⟩
    · rw [hv.childFor_below hbelow, hw.childFor_below (hlow ▸ hbelow)]
      have hhead : w.routes.head?.map Route.pid = v.routes.head?.map Route.pid := by
        rw [hr, hr']
        cases pre <;> rfl
      rw [head_routes, head_routes] at hhead
      exact Option.some.inj hhead
    · have hpost : post ≠ [] := fun hnil =>
        hlast ⟨(hv.route_last hl hr).mp hnil, hne, habove⟩
      rw [hv.childFor_above hne habove, hw.childFor_above (hup ▸ hne) (hup ▸ habove)]
      have hend : w.routes.getLast?.map Route.pid = v.routes.getLast?.map Route.pid := by
        obtain ⟨r, rest, rfl⟩ := List.exists_cons_of_ne_nil hpost
        rw [hr, hr']
        simp
      rw [last_routes, last_routes] at hend
      exact Option.some.inj hend

/-- When the last child is cut in two, keys above the whole node go to the second half. -/
lemma Ok.childFor_beyond (hv : v.Ok limit) (hl : v.isLeaf = false) (hw : w.Ok limit)
    (hr : v.routes = pre ++ ⟨lower, upper, pid⟩ :: post)
    (hr' : w.routes = pre ++ ⟨lower, sep, pid⟩ :: ⟨sep, upper, newPID⟩ :: post)
    (hup : w.upper = v.upper) (hlast : upper = v.upper) (hne : v.upper ≠ []) (hk : v.upper < k) :
    w.childFor k = newPID := by
  obtain rfl := (hv.route_last hl hr).mpr hlast
  have hend := w.last_routes
  rw [hr'] at hend
  rw [hw.childFor_above (hup ▸ hne) (hup ▸ hk)]
  simpa using hend.symm

end Cut

/-- Two adjacent entries with their children. -/
lemma routes_adjacent {i : Nat} (hi : i + 1 < v.entries.length) :
    ∃ es a b fs, v.entries = es ++ a :: b :: fs ∧ es.length = i ∧
      v.routes[i]? = some ⟨lastBound v.lower es, a.1, loadPID a.2⟩ ∧
      v.routes[i + 1]? = some ⟨a.1, b.1, loadPID b.2⟩ := by
  have hlt : i < v.entries.length := by omega
  have hsplit : v.entries = v.entries.take i ++ v.entries[i] :: v.entries[i + 1] ::
      v.entries.drop (i + 2) := by
    rw [List.getElem_cons_drop, List.getElem_cons_drop, List.take_append_drop]
  have hlen : (v.entries.take i).length = i := by
    rw [List.length_take]
    omega
  have hroutes : v.routes = slotRoutes v.lower (v.entries.take i) ++
      ⟨lastBound v.lower (v.entries.take i), v.entries[i].1, loadPID v.entries[i].2⟩ ::
        ⟨v.entries[i].1, v.entries[i + 1].1, loadPID v.entries[i + 1].2⟩ ::
          routesFrom v.entries[i + 1].1 (v.entries.drop (i + 2)) v.upper v.link := by
    conv_lhs => rw [routes_eq, hsplit, routesFrom_append]
    rfl
  have hlen' : (slotRoutes v.lower (v.entries.take i)).length = i := by
    rw [length_slotRoutes, hlen]
  refine ⟨_, _, _, _, hsplit, hlen, ?_, ?_⟩
  · rw [hroutes, List.getElem?_append_right hlen'.le, hlen', Nat.sub_self, List.getElem?_cons_zero]
  · rw [hroutes, List.getElem?_append_right (by omega), hlen', Nat.add_sub_cancel_left]
    rfl

end View

namespace BTreeNode

variable {n parent right : BTreeNode} {info : SeparatorInfo} {pid newPID : PID} {b : Bool}
  {limit : Nat}

/-! ## Splits -/

/-- `n` is the child `pid` of `parent`. -/
@[mk_iff]
structure ChildOf (n : BTreeNode) (pid : PID) (parent : BTreeNode) (limit : Nat := maxKVSize) :
    Prop where
  node : n.Valid limit
  valid : parent.Valid limit
  inner : parent.isLeaf = false
  route : ⟨n.getLowerFence, n.getUpperFence, pid⟩ ∈ parent.view.routes

instance (n : BTreeNode) (pid : PID) (parent : BTreeNode) (limit : Nat) :
    Decidable (n.ChildOf pid parent limit) :=
  decidable_of_iff' _ (childOf_iff n pid parent limit)

namespace ChildOf

/-- A key strictly inside the interval of a child is no separator of the parent. -/
lemma notMem (h : n.ChildOf pid parent limit) {sep : Key}
    (hk : InRange n.getLowerFence n.getUpperFence sep)
    (hlt : n.getUpperFence = [] ∨ sep < n.getUpperFence) : sep ∉ parent.keys := by
  intro hmem
  rw [keys_eq] at hmem
  obtain ⟨e, he, rfl⟩ := List.mem_map.mp hmem
  obtain ⟨es, fs, hsplit⟩ := List.append_of_mem he
  have hok := h.valid.ok
  have hr : (⟨lastBound parent.view.lower es, e.1, loadPID e.2⟩ : Route) ∈ parent.view.routes :=
    View.mem_routes_iff.mpr (Or.inl ⟨es, e, fs, hsplit, rfl⟩)
  have hbelow : ∀ a ∈ es, a.1 < e.1 := fun a ha => hok.lt_of_append hsplit ha (by simp)
  have hin := View.lastBound_below (hok.entry_inRange he).1 hbelow
  have heq := hok.route_unique h.inner hr h.route ⟨hin, Or.inr le_rfl⟩ hk
  have hup : e.1 = n.getUpperFence := congrArg Route.upper heq
  rcases hlt with hnil | hlt
  · exact hok.key_ne_nil h.inner he (hup.trans hnil)
  · exact lt_irrefl _ (hlt.trans_eq hup.symm)

/-- A separator of the child that the parent has room for. -/
lemma splitParent (h : n.ChildOf pid parent limit) {sep : Key} {es fs : List (Key × Key)}
    {e : Key × Key}
    (hs : Separator n.view info sep es e fs) (hspace : parent.hasSpaceFor sep.length 8 = true) :
    SplitParent parent pid sep limit := by
  have hk := hs.inRange h.node.ok
  have hlt := hs.lt_upper h.node.ok
  have hok := h.valid.ok
  refine ⟨h.valid, h.inner, ⟨hok.route_subset h.inner h.route hk, fun _ => ?_⟩, h.notMem hk hlt,
    hok.childFor_eq h.inner h.route hk, hspace⟩
  rcases hok.route_upper h.inner h.route with heq | ⟨hne, hup⟩
  · rw [← heq]
    exact hlt
  · exact hup.imp_right (fun hup => (hlt.resolve_left hne).trans hup)

end ChildOf

/-- The node is the last child, and the key is above the upper fence of the parent. No descent
comes to the parent with such a key. -/
def Beyond (n parent : BTreeNode) (k : Key) : Prop :=
  n.getUpperFence = parent.getUpperFence ∧ parent.getUpperFence ≠ [] ∧ parent.getUpperFence < k

/-- A split keeps the entries and sends every key of the node to the half that is responsible
for it. -/
structure SplitContract (n parent : BTreeNode) (pid newPID : PID) (info : SeparatorInfo)
    (l r p : BTreeNode) (limit : Nat := maxKVSize) : Prop where
  left_valid : l.Valid limit
  right_valid : r.Valid limit
  parent_valid : p.Valid limit
  isLeaf : l.isLeaf = n.isLeaf ∧ r.isLeaf = n.isLeaf
  left_fences : l.getLowerFence = n.getLowerFence ∧ l.getUpperFence = n.getSep info
  right_fences : r.getLowerFence = n.getSep info ∧ r.getUpperFence = n.getUpperFence
  leaf : n.isLeaf = true → l.entries ++ r.entries = n.entries
  inner : n.isLeaf = false →
    n.entries = l.entries ++ (n.fullKey info.slot, n.getPayload info.slot) :: r.entries ∧
      l.entries.length = info.slot ∧ l.link = n.getChild info.slot
  link : r.link = n.link
  child : ∀ k, InRange n.getLowerFence n.getUpperFence k →
    p.Reads (PageRead.lookupInner k) (if k ≤ n.getSep info then pid else newPID)
  other : ∀ k, ¬InRange n.getLowerFence n.getUpperFence k → ¬Beyond n parent k →
    ∀ c, parent.Reads (PageRead.lookupInner k) c → p.Reads (PageRead.lookupInner k) c
  beyond : ∀ k, Beyond n parent k → p.Reads (PageRead.lookupInner k) newPID
  routes : ∃ pre post, parent.view.routes = pre ++ ⟨n.getLowerFence, n.getUpperFence, pid⟩ :: post ∧
    p.view.routes = pre ++ ⟨n.getLowerFence, n.getSep info, pid⟩ ::
      ⟨n.getSep info, n.getUpperFence, newPID⟩ :: post

lemma Reads.unique {α : Type} {r : PageRead α} {a c : α} (ha : n.Reads r a) (hc : n.Reads r c) :
    a = c := by
  have h := ha.1.symm.trans hc.1
  exact Except.ok.inj h

lemma one_lt_of_findSeparator (h : n.findSeparator b = .ok info) : 1 < n.count := by
  by_contra hc
  simp only [findSeparator, check, hc, ite_false, bind, Except.bind] at h
  cases h

/-- The entries of a node around the slot of the separator. -/
lemma ChildOf.entries_split {es fs : List (Key × Key)} {e : Key × Key}
    (hs : Separator n.view info (n.getSep info) es e fs) :
    info.slot < n.count ∧ e = (n.fullKey info.slot, n.getPayload info.slot) := by
  have hent : n.entries = es ++ e :: fs := hs.entries
  have hlt : info.slot < n.entries.length := by
    rw [hent, hs.slot, List.length_append, List.length_cons]
    omega
  refine ⟨by simpa using hlt, ?_⟩
  rw [← getElem_entries hlt]
  simp only [hent, hs.slot]
  rw [List.getElem_append_right le_rfl]
  simp

/-- A node with the given contents, or an empty leaf if they do not fit. -/
def build (isLeaf : Bool) (link : PID) (lower upper : Key) (entries : List (Key × Key)) :
    BTreeNode :=
  let built : Except Fault BTreeNode := do
    let n ← (new isLeaf).setFences lower upper
    entries.foldlM (fun (n : BTreeNode) e => n.insertInPage e.1 e.2) n
  { built.toOption.getD (new true) with link := link }

/-- An inner node with the children 4 and 5, separated by a key of one byte. -/
def twoChildren : BTreeNode := build false 5 [] (keyOf [9]) [(keyOf [0], pidBytes 4)]

/-- The second child. -/
def lastChild : BTreeNode := build true 8 (keyOf [0]) (keyOf [9])
  [(keyOf [1], keyOf [1]), (keyOf [2], keyOf [2]), (keyOf [3], keyOf [3])]

lemma lastChild_childOf : lastChild.ChildOf 5 twoChildren := by decide +kernel

lemma lastChild_separator : lastChild.findSeparator false = .ok ⟨1, 1, false⟩ := by decide +kernel

lemma exists_ok {ε α : Type} {e : Except ε α} {f : α → Bool} (h : e.toOption.any f = true) :
    ∃ a, e = .ok a ∧ f a = true := by
  cases e with
  | error e => cases h
  | ok a => exact ⟨a, rfl, h⟩

/-- `n` and `right` are the leaves below the slots `slotId` and `slotId + 1` of `parent`. -/
@[mk_iff]
structure AdjacentLeaves (n right parent : BTreeNode) (pid rightPID : PID) (slotId : Nat)
    (limit : Nat := maxKVSize) : Prop where
  node : n.Valid limit
  neighbour : right.Valid limit
  valid : parent.Valid limit
  inner : parent.isLeaf = false
  leaf : n.isLeaf = true
  leaf' : right.isLeaf = true
  slot : slotId + 1 < parent.count
  route : parent.view.routes[slotId]? = some ⟨n.getLowerFence, n.getUpperFence, pid⟩
  route' : parent.view.routes[slotId + 1]? =
    some ⟨right.getLowerFence, right.getUpperFence, rightPID⟩

instance (n right parent : BTreeNode) (pid rightPID : PID) (slotId limit : Nat) :
    Decidable (n.AdjacentLeaves right parent pid rightPID slotId limit) :=
  decidable_of_iff' _ (adjacentLeaves_iff n right parent pid rightPID slotId limit)

/-- A merge joins the entries and the intervals of two leaves. -/
structure MergeContract (n right parent : BTreeNode) (pid : PID) (l p : BTreeNode) : Prop where
  valid : l.Valid
  parent_valid : p.Valid
  isLeaf : l.isLeaf = true
  entries : l.entries = n.entries ++ right.entries
  fences : l.getLowerFence = n.getLowerFence ∧ l.getUpperFence = right.getUpperFence
  link : l.link = right.link
  count : p.count + 1 = parent.count
  joint : ∀ k, InRange n.getLowerFence right.getUpperFence k →
    p.Reads (PageRead.lookupInner k) pid
  other : ∀ k, ¬InRange n.getLowerFence right.getUpperFence k →
    ∀ c, parent.Reads (PageRead.lookupInner k) c → p.Reads (PageRead.lookupInner k) c
  space : slotPos l.count + l.spaceUsed ≤ n.spaceUpperBound right

variable {rightPID : PID} {slotId : Nat}

/-- The contents of the parent around the two leaves. -/
lemma AdjacentLeaves.split (h : n.AdjacentLeaves right parent pid rightPID slotId limit) :
    ∃ es a b fs, parent.view.entries = es ++ a :: b :: fs ∧ es.length = slotId ∧
      n.getLowerFence = lastBound parent.view.lower es ∧ n.getUpperFence = a.1 ∧
      pid = loadPID a.2 ∧ right.getLowerFence = a.1 ∧ right.getUpperFence = b.1 := by
  obtain ⟨es, a, b, fs, hsplit, hlen, hr, hr'⟩ :=
    View.routes_adjacent (v := parent.view) (i := slotId) (by simpa using h.slot)
  have h1 := Option.some.inj (h.route.symm.trans hr)
  have h2 := Option.some.inj (h.route'.symm.trans hr')
  exact ⟨es, a, b, fs, hsplit, hlen, congrArg Route.lower h1, congrArg Route.upper h1,
    congrArg Route.pid h1, congrArg Route.lower h2, congrArg Route.upper h2⟩

/-- Of the keys only those of the right leaf take another way. -/
lemma AdjacentLeaves.childFor (h : n.AdjacentLeaves right parent pid rightPID slotId)
    {p : BTreeNode} (hp : p.Valid)
    (hview : p.view = parent.view.mergeParent slotId (parent.fullKey (slotId + 1)) pid) (k : Key) :
    p.view.childFor k =
      if InRange n.getLowerFence right.getUpperFence k then pid else parent.view.childFor k := by
  obtain ⟨es, a, b, fs, hsplit, rfl, hlow, hup, hpid, hlow', hup'⟩ := h.split
  have hok := h.valid.ok
  have hinner : p.isLeaf = false := (congrArg View.isLeaf hview).trans h.inner
  have hpb : pid < 2 ^ 64 := hpid ▸ hok.loadPID_lt h.inner (e := a) (by rw [hsplit]; simp)
  have hkey : parent.fullKey (es.length + 1) = b.1 := by
    have hlt : es.length + 1 < parent.entries.length := by simpa using h.slot
    have hent : parent.entries = es ++ a :: b :: fs := hsplit
    have hget := getElem_entries hlt
    simp only [hent] at hget
    rw [List.getElem_append_right (by omega)] at hget
    simpa using (congrArg Prod.fst hget).symm
  rw [hkey] at hview
  obtain ⟨pre, post, hroutes, hroutes'⟩ := View.routes_mergeParent hsplit hpb
  rw [← hview] at hroutes'
  by_cases hk : InRange n.getLowerFence right.getUpperFence k
  · rw [if_pos hk]
    rw [hlow, hup'] at hk
    exact hp.ok.childFor_eq hinner (r := ⟨lastBound parent.view.lower es, b.1, pid⟩)
      (by rw [hroutes']; simp) hk
  · rw [if_neg hk]
    rw [hlow, hup'] at hk
    have hlower : p.view.lower = parent.view.lower := (congrArg View.lower hview :)
    have hupper : p.view.upper = parent.view.upper := (congrArg View.upper hview :)
    -- read backwards, the merge cuts the joint interval in two
    have hcut : parent.view.childFor k = p.view.childFor k := by
      refine hp.ok.childFor_cut hinner hok h.inner hroutes' (hpid ▸ hroutes) hlower.symm hupper.symm
        hk ?_
      rintro ⟨hlast, hne, -⟩
      have hb : b ∈ parent.view.entries := by
        rw [hsplit]
        simp
      have hlt := ((hok.admits _ (List.mem_map_of_mem hb)).2 h.inner).resolve_left (hupper ▸ hne)
      exact hlt.ne (hlast.trans hupper)
    exact hcut.symm

lemma AdjacentLeaves.neighbours (h : n.AdjacentLeaves right parent pid rightPID slotId limit) :
    n.view.Neighbours right.view := by
  obtain ⟨es, a, b, fs, hsplit, -, -, hup, -, hlow, -⟩ := h.split
  refine ⟨h.leaf, h.leaf', hup.trans hlow.symm, ?_⟩
  change n.getUpperFence ≠ []
  rw [hup]
  exact h.valid.ok.key_ne_nil h.inner (e := a) (by rw [hsplit]; simp)

/-- Two leaves below a parent that also has a third child. -/
def leftLeaf : BTreeNode := build true 5 [] (keyOf [4])
  [(keyOf [1], keyOf [1]), (keyOf [2], keyOf [2]), (keyOf [3], keyOf [3])]

def rightLeaf : BTreeNode := build true 6 (keyOf [4]) (keyOf [8]) [(keyOf [5], keyOf [5])]

def threeChildren : BTreeNode := build false 6 [] [] [(keyOf [4], pidBytes 4), (keyOf [8], pidBytes 5)]

lemma leaves_adjacent : leftLeaf.AdjacentLeaves rightLeaf threeChildren 4 5 0 := by decide +kernel

/-- Keys, prefix, heads and hints agree, whatever the layout of the page. -/
@[mk_iff]
structure Logical (n : BTreeNode) : Prop where
  sorted : StrictSorted n.keys
  inRange : ∀ k ∈ n.keys, InRange n.getLowerFence n.getUpperFence k
  prefixLen : n.prefixLen = commonLen n.getLowerFence n.getUpperFence
  isPrefix : ∀ k ∈ n.keys, n.getLowerFence.take n.prefixLen <+: k
  heads : ∀ i, i < n.count → (n.slot i).head = head (n.getKey i)
  hints : n.HintsUpToDate

instance (n : BTreeNode) : Decidable n.Logical :=
  have : Decidable (StrictSorted n.keys) := inferInstanceAs (Decidable (n.keys.Pairwise (· < ·)))
  decidable_of_iff' _ (logical_iff n)

lemma Valid.logical (hn : n.Valid limit) : n.Logical := by
  have hin : ∀ k ∈ n.keys, InRange n.getLowerFence n.getUpperFence k := fun k hk =>
    (hn.ok.admits k (by rwa [view_keys])).1
  have hs := hn.searchable
  refine ⟨hs.sorted, hin, hn.prefixLen, fun k hk => ?_, hs.heads, hn.hints⟩
  rw [hn.prefixLen]
  exact (hin k hk).isPrefix

/-- The logical invariant of a page that is laid out correctly, with separators below the upper
fence in an inner node. Entries may have any size. -/
def Intact (n : BTreeNode) : Prop := n.Logical ∧ ∃ limit, n.Valid limit

lemma Valid.intact (hn : n.Valid limit) : n.Intact := ⟨hn.logical, limit, hn⟩

lemma Valid.removeInPage_eq (hn : n.Valid limit) (key : Key) :
    ∃ found n', n.removeInPage key = .ok (found, n') ∧ n'.Valid limit := by
  simp only [removeInPage, hn.lowerBound_eq, bind, Except.bind]
  by_cases hk : key ∈ n.keys
  · rw [decide_eq_true hk]
    exact ⟨true, _, rfl, (hn.removeSlot_eq (hn.found hk).1).1⟩
  · rw [decide_eq_false hk]
    exact ⟨false, n, rfl, hn⟩

/-- A split that returns keeps the pages intact. -/
lemma ChildOf.splitNode_valid (h : n.ChildOf pid parent limit) (hinfo : n.findSeparator b = .ok info)
    (hpos : 0 < info.slot) (hspace : parent.hasSpaceFor info.len 8 = true) {l r p : BTreeNode}
    (heq : n.splitNode pid newPID parent info.slot (n.getSep info) = .ok (l, r, p)) :
    l.Valid limit ∧ r.Valid limit ∧ p.Valid limit := by
  obtain ⟨info', es, e, fs, hinfo', hs, -⟩ :=
    h.node.findSeparator_eq (one_lt_of_findSeparator hinfo) b
  obtain rfl : info' = info := Except.ok.inj (hinfo'.symm.trans hinfo)
  rw [hs.len] at hspace
  have hp := h.splitParent hs hspace
  rcases le_or_gt (n.view.leftHalf (n.getSep info') es e newPID).size pageSize with hfit | hunfit
  · obtain ⟨l', r', p', heq', hres⟩ := h.node.splitNode_eq hs hpos hp newPID hfit
    obtain ⟨rfl, rfl, rfl⟩ : l' = l ∧ r' = r ∧ p' = p := by
      simpa using heq'.symm.trans heq
    exact ⟨hres.left_valid, hres.right_valid, hres.parent_valid⟩
  · rw [h.node.splitNode_unfit hs hpos hp newPID hunfit] at heq
    cases heq

/-- `mergeNodes` stores the fences of the merged leaf on a new page first. -/
lemma AdjacentLeaves.fences_fit (h : n.AdjacentLeaves right parent pid rightPID slotId limit)
    {x : Bool × BTreeNode × BTreeNode} (heq : n.mergeNodes pid slotId parent right = .ok x) :
    headerSize + n.getLowerFence.length + right.getUpperFence.length ≤ pageSize := by
  simp only [mergeNodes, h.leaf, h.leaf', isInner, h.inner, Bool.not_true, Bool.not_false, check,
    Bool.false_eq_true, ite_true, ite_false, bind, Except.bind] at heq
  split at heq
  · cases heq
  · rename_i tmp htmp
    exact setFences_fits htmp

/-- A merge that returns keeps the pages intact, and it returns if the fences fit. -/
lemma AdjacentLeaves.mergeNodes_intact
    (h : n.AdjacentLeaves right parent pid rightPID slotId limit)
    (hfences : headerSize + n.getLowerFence.length + right.getUpperFence.length ≤ pageSize) :
    ∃ merged l p, n.mergeNodes pid slotId parent right = .ok (merged, l, p) ∧
      l.Intact ∧ p.Intact := by
  rcases h.node.mergeNodes_eq h.neighbour h.neighbours hfences h.valid h.inner h.slot pid with
    ⟨-, heq⟩ | ⟨-, l, p, heq, hl, -, hp, -⟩
  · exact ⟨false, n, parent, heq, h.node.intact, h.valid.intact⟩
  · exact ⟨true, l, p, heq, hl.intact, hp.intact⟩

lemma leftLeaf_separator : leftLeaf.findSeparator false = .ok ⟨1, 1, false⟩ := by decide +kernel

/-- A leaf that has lost track of where its keys are stored. -/
def misplacedLeaf : BTreeNode := 
  { build true 0 [] [] [(keyOf [5], []), (keyOf [9], [])] with dataOffset := pageSize }

/-- An inner node with its upper fence as a separator. -/
def fencedInner : BTreeNode := build false 3 [] (keyOf [9]) [(keyOf [4], pidBytes 1), (keyOf [9], pidBytes 2)]

def fencedParent : BTreeNode := build false 6 [] [] [(keyOf [9], pidBytes 4)]

/-- A payload that is longer than a page is never stored. -/
lemma insertInPage_ne_ok {n n' : BTreeNode} {key payload : Key} (hlong : pageSize < payload.length) :
    n.insertInPage key payload ≠ .ok n' := by
  intro h
  simp only [insertInPage, storeKeyValue, bind, Except.bind] at h
  split at h
  · cases h
  split at h
  · cases h
  split at h
  · cases h
  rename_i m hstore
  split at hstore
  · cases hstore
  split at hstore
  · cases hstore
  simp only [storeBytes, List.length_append] at hstore
  split at hstore
  · omega
  · cases hstore

/-- `spaceNeeded` is zero for this length. -/
lemma new_hasSpaceFor : (new true).hasSpaceFor 1 (2 ^ 32 - 11) = true := by decide +kernel

end BTreeNode

end MemSafeDB
