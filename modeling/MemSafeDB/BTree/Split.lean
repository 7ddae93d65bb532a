import MemSafeDB.BTree.Separator

/-!
# Splitting a node

The parent redirects its pointer to the right half and gets the separator with a pointer to the
left half, which keeps the page. The right half always fits; whether the left half fits is up
to the separator.
-/

namespace MemSafeDB
open Lib

/-! ## The parent -/

/-- Redirects the pointer of the first entry. -/
def redirectHead (pid : PID) : List (Key × Key) → List (Key × Key)
  | [] => []
  | e :: es => (e.1, pidBytes pid) :: es

@[simp] lemma map_fst_redirectHead (pid : PID) (es : List (Key × Key)) :
    (redirectHead pid es).map Prod.fst = es.map Prod.fst := by
  cases es <;> rfl

/-- The parent of the pages `left` and `new` that are separated by `sep`. -/
def View.splitParent (v : View) (sep : Key) (left new : PID) : View :=
  let i := rank v.keys sep
  { v with
    entries := v.entries.take i ++ (sep, pidBytes left) :: redirectHead new (v.entries.drop i)
    link := if i = v.entries.length then new else v.link }

/-- The child of the separator is replaced by the two halves. -/
lemma View.routes_splitParent (v : View) (sep : Key) {left new : PID} (hl : left < 2 ^ 64)
    (hn : new < 2 ^ 64) :
    ∃ pre lower upper post, v.routes = pre ++ ⟨lower, upper, v.childFor sep⟩ :: post ∧
      (v.splitParent sep left new).routes =
        pre ++ ⟨lower, sep, left⟩ :: ⟨sep, upper, new⟩ :: post ∧
      (∀ {limit : Nat}, v.Ok limit → InRange v.lower v.upper sep → InRange lower upper sep) := by
  set i := rank v.keys sep with hi
  have hle : i ≤ v.entries.length := by simpa using rank_le_length v.keys sep
  have hsplit := List.take_append_drop i v.entries
  refine ⟨slotRoutes v.lower (v.entries.take i), lastBound v.lower (v.entries.take i),
    headUpper (v.entries.drop i) v.upper, tailRoutes (v.entries.drop i) v.upper v.link, ?_, ?_, ?_⟩
  · rw [View.routes_eq]
    conv_lhs => rw [← hsplit]
    rw [routesFrom_append, routesFrom_eq_cons]
    congr 3
    rw [headPid, List.head?_drop, View.childFor, ← hi]
    cases v.entries[i]? <;> rfl
  · rw [View.routes_eq, View.splitParent]
    simp only [← hi]
    rw [routesFrom_append, routesFrom_eq_cons]
    simp only [headUpper, headPid, List.head?_cons, Option.map_some, Option.getD_some,
      pid_roundtrip hl, tailRoutes]
    congr 2
    rw [routesFrom_eq_cons]
    cases hd : v.entries.drop i with
    | nil =>
      have hlen : i = v.entries.length := by
        have hz := congrArg List.length hd
        simp only [List.length_drop, List.length_nil] at hz
        omega
      simp [redirectHead, headUpper, headPid, tailRoutes, hlen]
    | cons e es =>
      have hlen : i ≠ v.entries.length := by
        intro heq
        rw [heq, List.drop_length] at hd
        cases hd
      simp [redirectHead, headUpper, headPid, tailRoutes, hlen, pid_roundtrip hn]
  · intro _ hv hsep
    obtain ⟨es, fs, heq, hrank, h1, h2⟩ := hv.split_at sep
    rw [hi, hrank, heq, List.take_left, List.drop_left]
    refine ⟨View.lastBound_below hsep.1 h1, ?_⟩
    cases fs with
    | nil => exact hsep.2
    | cons f fs => exact Or.inr (h2 f (List.mem_cons_self ..))

/-- The halves of an inner node share its children. -/
lemma View.routes_halves {v : View} {sep : Key} {es fs : List (Key × Key)} {e : Key × Key}
    (hl : v.isLeaf = false) (hv : v.entries = es ++ e :: fs) (hs : sep = e.1) :
    v.routes = (v.leftHalf sep es e (loadPID e.2)).routes ++ (v.rightHalf sep fs).routes := by
  subst hs
  rw [View.routes_eq, hv, routesFrom_append, routesFrom_eq_cons]
  simp [View.leftHalf, View.rightHalf, View.leftEntries, hl, View.routes_eq, routesFrom, headUpper,
    headPid, tailRoutes]

namespace BTreeNode

variable {limit : Nat}

lemma Valid.getChild_eq {n : BTreeNode} (hn : n.Valid limit) (hl : n.isLeaf = false) {i : Nat}
    (hi : i < n.count) : n.getChild i = loadPID (n.getPayload i) ∧ (n.slot i).payloadLen = 8 := by
  have hi' : i < n.view.entries.length := by simpa using hi
  have hok := hn.ok.entryOk _ (List.getElem_mem hi')
  have hent : n.view.entries[i] = (n.fullKey i, n.getPayload i) := getElem_entries hi'
  rw [hent] at hok
  simp only [View.EntryOk, view_isLeaf, hl, Bool.false_eq_true, ite_false] at hok
  have hlen : (n.slot i).payloadLen = 8 := by
    rw [← length_getPayload]
    exact hok.2.2
  exact ⟨by rw [getChild, getPayload, hlen], hlen⟩

lemma insertIdx_length_append {α : Type} (es fs : List α) (x : α) :
    (es ++ fs).insertIdx es.length x = es ++ x :: fs := by
  induction es with
  | nil => simp
  | cons e es ih => simp [ih]

/-- Redirecting the pointer to `left` at the place of the separator. -/
lemma Valid.redirect_eq {parent : BTreeNode} (hp : parent.Valid limit) (hl : parent.isLeaf = false)
    {sep : Key} {left : PID} (new : PID) (hchild : parent.view.childFor sep = left) :
    ∃ p, parent.redirect (rank parent.keys sep) left new = .ok p ∧ p.Valid limit ∧
      p.hasSpaceFor = parent.hasSpaceFor ∧
      p.view = { parent.view with
        entries := parent.entries.take (rank parent.keys sep) ++
          redirectHead new (parent.entries.drop (rank parent.keys sep))
        link := if rank parent.keys sep = parent.entries.length then new else parent.link } := by
  have hr : rank parent.keys sep ≤ parent.count := by
    simpa using rank_le_length parent.keys sep
  unfold redirect
  by_cases hi : rank parent.keys sep = parent.count
  · have hlink : parent.link = left := by
      rw [← hchild, View.childFor, view_keys, view_entries, hi, List.getElem?_eq_none (by simp)]
      rfl
    refine ⟨{ parent with link := new }, ?_, ⟨hp.layout, hp.prefixLen, hp.hints, ?_⟩, rfl, ?_⟩
    · simp only [hi, ite_true, check, hlink, bind, Except.bind]
      rfl
    · exact ⟨hp.ok.sorted, hp.ok.admits, hp.ok.fences, hp.ok.lowerLen, hp.ok.upperLen,
        hp.ok.entryOk⟩
    · have hlen : rank parent.keys sep = parent.entries.length := by simpa using hi
      rw [if_pos hlen, hlen, List.take_length, List.drop_length]
      simp only [redirectHead, List.append_nil]
      rfl
  · have hlt : rank parent.keys sep < parent.count := by omega
    have hlt' : rank parent.keys sep < parent.entries.length := by simpa using hlt
    obtain ⟨hget, hpl⟩ := hp.getChild_eq hl hlt
    have hleft : parent.getChild (rank parent.keys sep) = left := by
      rw [← hchild, View.childFor, view_keys, view_entries, List.getElem?_eq_getElem hlt',
        getElem_entries hlt', hget]
    obtain ⟨hset, hvalid, hview⟩ := hp.setPayload_eq hlt (pidBytes new) (by simp [hpl])
    refine ⟨_, ?_, hvalid, rfl, ?_⟩
    · simp only [hi, ite_false, check, hleft, ite_true, bind, Except.bind, hset]
    · rw [hview, if_neg (by simpa using hi)]
      have hdrop : parent.entries.drop (rank parent.keys sep) =
          (parent.fullKey (rank parent.keys sep), parent.getPayload (rank parent.keys sep)) ::
            parent.entries.drop (rank parent.keys sep + 1) := by
        rw [← getElem_entries hlt', List.getElem_cons_drop]
      rw [hdrop, redirectHead, List.set_eq_take_append_cons_drop, if_pos hlt']
      rfl

/-- The parent of a split node. -/
theorem Valid.splitParent_eq {parent : BTreeNode} (hp : parent.Valid limit) (hl : parent.isLeaf = false)
    {sep : Key} {left : PID} (new : PID) (hsep : parent.view.Admits sep) (hnew : sep ∉ parent.keys)
    (hne : sep ≠ []) (hlen : sep.length ≤ limit) (hsize : sep.length ≤ pageSize)
    (hchild : parent.view.childFor sep = left)
    (hspace : parent.hasSpaceFor sep.length 8 = true) :
    ∃ p, parent.splitParent sep left new = .ok p ∧ p.Valid limit ∧
      p.view = parent.view.splitParent sep left new := by
  obtain ⟨p, hred, hpv, hspc, hview⟩ := hp.redirect_eq hl new hchild
  have hentries := congrArg View.entries hview
  have hleaf : p.isLeaf = false := (congrArg View.isLeaf hview).trans hl
  have hkeys : p.keys = parent.keys := by
    rw [keys_eq, keys_eq, show p.entries = _ from hentries]
    simp only [List.map_append, map_fst_redirectHead]
    rw [← List.map_append, List.take_append_drop]
  have hlow : p.getLowerFence = parent.getLowerFence := congrArg View.lower hview
  have hupp : p.getUpperFence = parent.getUpperFence := congrArg View.upper hview
  have hadm : p.view.Admits sep := by
    unfold View.Admits
    rw [view_lower, view_upper, view_isLeaf, hlow, hupp, hleaf]
    have hold := hsep.2
    rw [view_isLeaf, hl] at hold
    exact ⟨hsep.1, hold⟩
  have hentry : View.EntryOk p.isLeaf (sep, pidBytes left) limit := by
    simp only [View.EntryOk, hleaf, Bool.false_eq_true, ite_false]
    exact ⟨hne, hlen, length_pidBytes left⟩
  have hnew' : sep ∉ p.keys := hkeys ▸ hnew
  have hfew : slotSize + (sep.length - p.prefixLen) + (pidBytes left).length < 2 ^ 32 := by
    rw [length_pidBytes]
    simp only [pageSize, slotSize] at hsize ⊢
    omega
  obtain ⟨q, hq, hqv, hqview⟩ := hpv.insertInPage_eq hnew' hadm hentry hfew
    (by rw [length_pidBytes, hspc]; exact hspace)
  refine ⟨q, ?_, hqv, ?_⟩
  · simp only [splitParent, hp.lowerBound_eq, bind, Except.bind, hred, hq]
  · have hrank : rank parent.keys sep ≤ parent.entries.length := by
      simpa using rank_le_length parent.keys sep
    have htake : (parent.entries.take (rank parent.keys sep)).length = rank parent.keys sep := by
      rw [List.length_take]
      omega
    have hins := insertIdx_length_append (parent.entries.take (rank parent.keys sep))
      (redirectHead new (parent.entries.drop (rank parent.keys sep))) (sep, pidBytes left)
    rw [htake] at hins
    rw [hqview, hkeys, show p.entries = _ from hentries]
    change View.mk p.view.isLeaf p.view.link p.view.lower p.view.upper _ = _
    rw [hview]
    dsimp only
    rw [hins, View.splitParent, view_keys, view_entries]
    rfl

/-! ## The halves -/

/-- Copying a part of the entries to a fresh page. -/
lemma Valid.copy_part {n dst : BTreeNode} (hn : n.Valid limit) {pre mid post : List (Key × Key)}
    (hsplit : n.entries = pre ++ mid ++ post) {b : Bool} {lower upper : Key}
    (hf : dst.Fresh b lower upper) (hr : ∀ e ∈ mid, InRange lower upper e.1) :
    dst.Target mid ∧ dst.Filled dst.count [] ∧
      ∀ k (h : k < mid.length), n.Source (pre.length + k) mid[k] := by
  have hcount : n.count = pre.length + mid.length + post.length := by
    rw [← length_entries, hsplit, List.length_append, List.length_append]
  have hle := hn.count_le
  have hsize : ∀ e ∈ mid, e.1.length ≤ pageSize ∧ e.2.length ≤ pageSize := by
    intro e he
    have hmem : e ∈ n.entries :=
      hsplit ▸ List.mem_append_left post (List.mem_append_right pre he)
    exact (hn.accounted.entry_space_le hmem).2
  refine ⟨hf.target (Frame.refl dst) hr hsize (by omega), hf.count ▸ hf.filled, ?_⟩
  intro k hk
  have hsrc := hn.source (show pre.length + k < n.entries.length by rw [length_entries]; omega)
  have hlt : pre.length + k < n.entries.length := by rw [length_entries]; omega
  have hget : n.entries[pre.length + k] = mid[k] := by
    simp only [hsplit]
    rw [List.getElem_append_left (by simp; omega), List.getElem_append_right (by omega)]
    simp
  rwa [hget] at hsrc

/-- A part that fits is copied, and the page is valid once its hints are made. -/
lemma Valid.copy_fits {n dst : BTreeNode} (hn : n.Valid limit) {pre mid post : List (Key × Key)}
    (hsplit : n.entries = pre ++ mid ++ post) {b : Bool} {lower upper : Key}
    (hf : dst.Fresh b lower upper) (link : PID) (hok : View.Ok ⟨b, link, lower, upper, mid⟩ limit)
    (hfit : View.size ⟨b, link, lower, upper, mid⟩ ≤ pageSize) :
    ∃ m, n.copyKeyValueRange dst 0 pre.length mid.length = .ok m ∧ m.count = mid.length ∧
      ({ m with link := link } : BTreeNode).makeHint.Valid limit ∧
      ({ m with link := link } : BTreeNode).makeHint.view = ⟨b, link, lower, upper, mid⟩ := by
  obtain ⟨ht, hfill, hsrc⟩ := hn.copy_part hsplit hf (fun e he => hok.entry_inRange he)
  simp only [View.size, View.spaceUsed, View.prefixLen] at hfit
  obtain ⟨m, hm, hc⟩ := copyKeyValueRange_eq hsrc hfill ht (by
    rw [hf.count, hf.prefixLen, hf.dataOffset, Nat.zero_add]
    omega)
  rw [hf.count] at hm
  have hcount : m.count = mid.length := by
    rw [hc.count, hf.count, Nat.zero_add]
  exact ⟨m, hm, hcount, hf.valid hc.frame hc.filled link hok⟩

/-- The fault with which the copy of a half that does not fit ends: its bytes run out of the
page, or they collide with its slots or its header. -/
def unfitFault (v : View) : Fault :=
  if pageSize < v.spaceUsed then .overflow else .assertion .copyKeyValueRange

lemma Valid.copy_unfit {n dst : BTreeNode} (hn : n.Valid limit) {pre mid post : List (Key × Key)}
    (hsplit : n.entries = pre ++ mid ++ post) {b : Bool} {lower upper : Key}
    (hf : dst.Fresh b lower upper) (link : PID) (hok : View.Ok ⟨b, link, lower, upper, mid⟩ limit)
    (hp : n.prefixLen ≤ commonLen lower upper)
    (hfences : headerSize + lower.length + upper.length ≤ pageSize)
    (hunfit : pageSize < View.size ⟨b, link, lower, upper, mid⟩) :
    n.copyKeyValueRange dst 0 pre.length mid.length =
      .error (unfitFault ⟨b, link, lower, upper, mid⟩) := by
  obtain ⟨ht, hfill, hsrc⟩ := hn.copy_part hsplit hf (fun e he => hok.entry_inRange he)
  simp only [headerSize, pageSize] at hfences
  simp only [View.size, View.spaceUsed, View.prefixLen, pageSize] at hunfit
  have herr := copyKeyValueRange_unfit hsrc hfill ht (by rwa [hf.prefixLen]) (by
    rw [hf.count, hf.prefixLen, hf.dataOffset, Nat.zero_add]
    simp only [pageSize]
    omega)
  rw [hf.count, hf.prefixLen, hf.dataOffset] at herr
  rw [herr, unfitFault]
  congr 1
  refine if_congr ?_ rfl rfl
  simp only [View.spaceUsed, View.prefixLen, pageSize]
  omega

/-- What a split leaves: the halves and the parent. -/
structure SplitResult (n parent : BTreeNode) (pid newPID : PID) (sep : Key)
    (es : List (Key × Key)) (e : Key × Key) (fs : List (Key × Key)) (l r p : BTreeNode)
    (limit : Nat := maxKVSize) : Prop where
  left_valid : l.Valid limit
  right_valid : r.Valid limit
  parent_valid : p.Valid limit
  left_view : l.view = n.view.leftHalf sep es e (if n.isLeaf then newPID else loadPID e.2)
  right_view : r.view = n.view.rightHalf sep fs
  parent_view : p.view = parent.view.splitParent sep pid newPID

/-- What a split needs of the parent of the page `pid`. -/
structure SplitParent (parent : BTreeNode) (pid : PID) (sep : Key) (limit : Nat := maxKVSize) :
    Prop where
  valid : parent.Valid limit
  inner : parent.isLeaf = false
  admits : parent.view.Admits sep
  new : sep ∉ parent.keys
  child : parent.view.childFor sep = pid
  space : parent.hasSpaceFor sep.length 8 = true

variable {n parent : BTreeNode} {info : SeparatorInfo} {sep : Key} {es fs : List (Key × Key)}
  {e : Key × Key} {pid : PID}

lemma leftEntries_split (hs : Separator n.view info sep es e fs) :
    ∃ post, n.entries = [] ++ n.view.leftEntries es e ++ post := by
  have hent : n.entries = es ++ e :: fs := hs.entries
  rw [hent, View.leftEntries]
  split
  · exact ⟨fs, by simp⟩
  · exact ⟨e :: fs, by simp⟩

lemma length_leftEntries (hs : Separator n.view info sep es e fs) :
    (n.view.leftEntries es e).length = if n.isLeaf then info.slot + 1 else info.slot := by
  rw [View.leftEntries, view_isLeaf, hs.slot]
  split <;> simp

/-- The new pages and the parent, up to the copying of the entries. -/
lemma Valid.splitNode_start (hn : n.Valid limit) (hs : Separator n.view info sep es e fs)
    (hpos : 0 < info.slot) (hp : SplitParent parent pid sep limit) (newPID : PID) :
    ∃ l r p, l.Fresh n.isLeaf n.getLowerFence sep ∧ r.Fresh n.isLeaf sep n.getUpperFence ∧
      p.Valid limit ∧ p.view = parent.view.splitParent sep pid newPID ∧
      n.splitNode pid newPID parent info.slot sep =
        (n.splitEntries l r newPID info.slot).bind
          (fun lr => .ok (lr.1.makeHint, lr.2.makeHint, p)) := by
  obtain ⟨hleft, hright⟩ := hs.fences_fit hn.size_le
  obtain ⟨l, hl, hlf, -⟩ := setFences_eq n.isLeaf n.getLowerFence sep hleft
  obtain ⟨r, hr, hrf, -⟩ := setFences_eq n.isLeaf sep n.getUpperFence hright
  have hsize : sep.length ≤ pageSize := (Nat.le_add_left _ _).trans hleft
  obtain ⟨p, hpe, hpv, hpview⟩ := hp.valid.splitParent_eq hp.inner newPID hp.admits hp.new
    (hs.ne_nil hn.ok hpos) (hs.length_sep_le hn.ok) hsize hp.child hp.space
  refine ⟨l, r, p, hlf, hrf, hpv, hpview, ?_⟩
  simp only [splitNode, hl, hr, hpe, bind, Except.bind]
  cases n.splitEntries l r newPID info.slot <;> rfl

/-- A split whose left half fits succeeds. -/
theorem Valid.splitNode_eq (hn : n.Valid limit) (hs : Separator n.view info sep es e fs)
    (hpos : 0 < info.slot) (hp : SplitParent parent pid sep limit) (newPID : PID)
    (hfit : (n.view.leftHalf sep es e newPID).size ≤ pageSize) :
    ∃ l r p, n.splitNode pid newPID parent info.slot sep = .ok (l, r, p) ∧
      SplitResult n parent pid newPID sep es e fs l r p limit := by
  obtain ⟨l, r, p, hlf, hrf, hpv, hpview, heq⟩ := hn.splitNode_start hs hpos hp newPID
  have hent : n.entries = es ++ e :: fs := hs.entries
  have hcount : n.count = es.length + 1 + fs.length := by
    rw [← length_entries, hent, List.length_append, List.length_cons]
    omega
  obtain ⟨post, hpost⟩ := leftEntries_split hs
  have hlen := length_leftEntries hs
  obtain ⟨ml, hml, hmlc, hmlv, hmlview⟩ := hn.copy_fits hpost hlf
    (if n.isLeaf then newPID else loadPID e.2) (hs.left_ok hn.ok hpos _) hfit
  have hsplit : n.entries = (es ++ [e]) ++ fs ++ [] := by simp [hent]
  obtain ⟨mr, hmr, hmrc, hmrv, hmrview⟩ := hn.copy_fits hsplit hrf n.link
    (hs.right_ok hn.ok hpos) (hs.right_fits hn.ok hn.size_le)
  rw [hlen] at hml hmlc
  refine ⟨_, _, p, ?_, hmlv, hmrv, hpv, hmlview, hmrview, hpview⟩
  rw [heq]
  have hrest : (es ++ [e]).length = info.slot + 1 := by simp [hs.slot]
  rw [hrest] at hmr
  unfold splitEntries
  by_cases hleaf : n.isLeaf = true
  · simp only [hleaf, ite_true, List.length_nil] at hml hmlc ⊢
    have hfs : n.count - (info.slot + 1) = fs.length := by
      rw [hcount, hs.slot]
      omega
    simp only [hml, hmlc, hfs, hmr, bind, Except.bind]
    rfl
  · simp only [hleaf, Bool.false_eq_true, ite_false, List.length_nil] at hml hmlc ⊢
    have hfs : n.count - info.slot - 1 = fs.length := by
      rw [hcount, hs.slot]
      omega
    have hchild : n.getChild info.slot = loadPID e.2 := by
      have hlt : info.slot < n.entries.length := by
        rw [length_entries, hcount, hs.slot]
        omega
      have hget : n.entries[info.slot] = e := by
        simp only [hent, hs.slot]
        rw [List.getElem_append_right le_rfl]
        simp
      rw [getElem_entries hlt] at hget
      rw [(hn.getChild_eq (by simpa using hleaf) (by simpa using hlt)).1, ← hget]
    simp only [hml, hmlc, hfs, hmr, hchild, bind, Except.bind]
    rfl

/-- A split whose left half does not fit ends in a fault. -/
theorem Valid.splitNode_unfit (hn : n.Valid limit) (hs : Separator n.view info sep es e fs)
    (hpos : 0 < info.slot) (hp : SplitParent parent pid sep limit) (newPID : PID)
    (hunfit : pageSize < (n.view.leftHalf sep es e newPID).size) :
    n.splitNode pid newPID parent info.slot sep =
      .error (unfitFault (n.view.leftHalf sep es e newPID)) := by
  obtain ⟨l, r, p, hlf, -, -, -, heq⟩ := hn.splitNode_start hs hpos hp newPID
  have hleaf : n.isLeaf = true := by
    by_contra hc
    have hin := hs.left_fits_inner hn.ok hn.size_le (by simpa using hc) newPID
    omega
  obtain ⟨post, hpost⟩ := leftEntries_split hs
  have hlen := length_leftEntries hs
  have hpl : n.prefixLen ≤ commonLen n.getLowerFence sep := by
    rw [hn.prefixLen]
    exact (hs.inRange hn.ok).prefix_le_left
  have herr := hn.copy_unfit hpost hlf newPID (hs.left_ok hn.ok hpos newPID) hpl
    (hs.fences_fit hn.size_le).1 hunfit
  rw [hlen, hleaf, List.length_nil] at herr
  simp only [ite_true] at herr
  rw [heq, splitEntries]
  simp only [hleaf, ite_true, herr, bind, Except.bind]
  rw [View.leftHalf, view_isLeaf, hleaf]
  rfl

/-- The left half of a split, as far as it takes up space. -/
def leftView (n : BTreeNode) (sepSlot : Nat) (sep : Key) : View :=
  { n.view with
    upper := sep
    entries := n.entries.take (sepSlot + n.isLeaf.toNat)
    link := noNeighbour }

lemma leftHalf_eq (hs : Separator n.view info sep es e fs) :
    n.view.leftHalf sep es e noNeighbour = n.leftView info.slot sep := by
  have hent : n.entries = es ++ e :: fs := hs.entries
  have hleft : n.view.leftEntries es e = n.entries.take (info.slot + n.isLeaf.toNat) := by
    rw [View.leftEntries, hs.slot, hent]
    change (if n.isLeaf = true then es ++ [e] else es) = _
    cases n.isLeaf <;> simp [List.take_append, List.take_of_length_le]
  rw [View.leftHalf, hleft]
  rfl

end BTreeNode

end MemSafeDB
