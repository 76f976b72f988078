import Weverywhere.LoopPrevention
import Mathlib.Data.Set.Finite.List
import Mathlib.Data.Finite.Sigma
import Mathlib.Data.Finite.Prod
import Mathlib.Data.Fintype.Sets
import Mathlib.Algebra.Ring.Int.Defs

/-!
The depth budget along chains of forwarded requests. The per-hop rule amounts to
a formula in the budget of the arriving request and the trust of each edge; the
formula bounds every chain, and with finitely many nodes and targets it bounds
the requests that one request can cause.
-/
namespace Weverywhere.DepthBudget

open ByteStrings Identity Weverywhere.Configuration Messages Node Discovery DiscoveryWorld Runs

/-- 8 hops over a trusted edge, 2 over an untrusted one. -/
def cap (trusts : Bool) : ℤ := if trusts then 8 else 2

/-- The budget after a chain of forwardings over edges of the given trust. -/
def pathBudget (b0 : UInt8) (trusts : List Bool) : UInt8 := trusts.foldl childDepthBudget b0

/-- The least of `b0 - n` and of `cap_j - (n - j)` over the hops `j` of a chain
of `n` hops; the hops are numbered from 1, the list from 0. -/
def slack (b0 : ℕ) (trusts : List Bool) : ℤ :=
  (List.range trusts.length).foldr
    (fun j least => min (cap (trusts.getD j false) - (trusts.length - (j + 1))) least)
    (b0 - trusts.length)

theorem trustCap_toNat (trusts : Bool) : ((trustCap trusts).toNat : ℤ) = cap trusts := by
  cases trusts <;> rfl

theorem cap_nonneg (trusts : Bool) : 0 ≤ cap trusts := by
  cases trusts <;> decide

theorem toNat_min (x y : UInt8) : (min x y).toNat = min x.toNat y.toNat := by
  change (if x ≤ y then x else y).toNat = min x.toNat y.toNat
  split_ifs with hle
  · rw [UInt8.le_iff_toNat_le] at hle
    omega
  · rw [UInt8.le_iff_toNat_le] at hle
    omega

theorem childDepthBudget_toNat (b : UInt8) (trusts : Bool) :
    ((childDepthBudget b trusts).toNat : ℤ) =
      max 0 (min ((b.toNat : ℤ) - 1) (cap trusts)) := by
  have hcap := trustCap_toNat trusts
  have hnonneg := cap_nonneg trusts
  unfold childDepthBudget
  by_cases hb : b = 0
  · subst hb
    rw [if_pos rfl]
    simp only [UInt8.toNat_zero]
    omega
  · have hpos : 1 ≤ b.toNat := by
      have hne : b.toNat ≠ (0 : UInt8).toNat := fun h => hb (UInt8.toNat_inj.mp h)
      simp only [UInt8.toNat_zero] at hne
      omega
    have hsub : (b - 1).toNat = b.toNat - 1 :=
      UInt8.toNat_sub_of_le b 1 (by rw [UInt8.le_iff_toNat_le]; exact hpos)
    rw [if_neg hb, toNat_min]
    omega

theorem foldr_min_sub (f : ℕ → ℤ) (x : ℤ) (indices : List ℕ) :
    indices.foldr (fun j least => min (f j - 1) least) (x - 1) =
      indices.foldr (fun j least => min (f j) least) x - 1 := by
  induction indices with
  | nil => rfl
  | cons j rest ih =>
    simp only [List.foldr_cons, ih]
    omega

theorem foldr_min_init (f : ℕ → ℤ) (a x : ℤ) (indices : List ℕ) :
    indices.foldr (fun j least => min (f j) least) (min a x) =
      min (indices.foldr (fun j least => min (f j) least) x) a := by
  induction indices with
  | nil => exact min_comm a x
  | cons j rest ih =>
    simp only [List.foldr_cons, ih]
    omega

@[simp] theorem slack_nil (b0 : ℕ) : slack b0 [] = b0 := by
  simp [slack]

/-- One more hop costs one and cannot exceed the cap of its edge. -/
theorem slack_append (b0 : ℕ) (trusts : List Bool) (edge : Bool) :
    slack b0 (trusts ++ [edge]) = min (slack b0 trusts - 1) (cap edge) := by
  let f : ℕ → ℤ := fun j => cap (trusts.getD j false) - (trusts.length - (j + 1))
  have hlength : (trusts ++ [edge]).length = trusts.length + 1 := by simp
  have hlast : (trusts ++ [edge]).getD trusts.length false = edge := by simp
  have hearlier : ∀ j ∈ List.range trusts.length, ∀ least : ℤ,
      min (cap ((trusts ++ [edge]).getD j false) - (((trusts.length + 1 : ℕ) : ℤ) - (j + 1)))
        least = min (f j - 1) least := by
    intro j hj least
    have hget : (trusts ++ [edge]).getD j false = trusts.getD j false := by
      rw [List.getD_eq_getElem?_getD, List.getD_eq_getElem?_getD,
        List.getElem?_append_left (List.mem_range.mp hj)]
    simp only [f, hget]
    omega
  unfold slack
  rw [hlength, List.range_succ, List.foldr_append, List.foldr_cons, List.foldr_nil, hlast,
    List.foldr_ext _ _ _ hearlier]
  have hinit : min (cap edge - (((trusts.length + 1 : ℕ) : ℤ) - (trusts.length + 1)))
      ((b0 : ℤ) - (trusts.length + 1 : ℕ)) = min (cap edge) ((b0 - trusts.length : ℤ) - 1) := by
    omega
  rw [hinit, foldr_min_init, foldr_min_sub]

theorem pathBudget_append (b0 : UInt8) (trusts : List Bool) (edge : Bool) :
    pathBudget b0 (trusts ++ [edge]) = childDepthBudget (pathBudget b0 trusts) edge := by
  simp [pathBudget]

/-- The budget of a chain in closed form. -/
theorem pathBudget_eq (b0 : UInt8) (trusts : List Bool) :
    ((pathBudget b0 trusts).toNat : ℤ) = max 0 (slack b0.toNat trusts) := by
  induction trusts using List.reverseRecOn with
  | nil =>
    simp only [pathBudget, List.foldl_nil, slack_nil]
    omega
  | append_singleton trusts edge ih =>
    have hnonneg := cap_nonneg edge
    rw [pathBudget_append, childDepthBudget_toNat, ih, slack_append]
    omega

/-! Bounds on the length of a chain. -/

theorem slack_le_start (b0 : ℕ) (trusts : List Bool) : slack b0 trusts ≤ b0 - trusts.length := by
  induction trusts using List.reverseRecOn with
  | nil => simp
  | append_singleton trusts edge ih =>
    rw [slack_append, List.length_append, List.length_singleton]
    omega

/-- An edge bounds what is left of the budget further down the chain. -/
theorem slack_le_edge (b0 : ℕ) (before after : List Bool) (edge : Bool) :
    slack b0 (before ++ edge :: after) ≤ cap edge - after.length := by
  induction after using List.reverseRecOn with
  | nil =>
    rw [slack_append, List.length_nil]
    omega
  | append_singleton after last ih =>
    have hsplit : before ++ edge :: (after ++ [last]) = (before ++ edge :: after) ++ [last] := by
      simp
    rw [hsplit, slack_append, List.length_append, List.length_singleton]
    omega

/-- A chain whose every forwarding had budget left: `b` is the budget it started
with, and the forwarders gate on the budget they were granted. -/
def Funded (b0 : UInt8) (trusts : List Bool) : Prop :=
  ∀ before edge after, trusts = before ++ edge :: after → 0 < pathBudget b0 before

theorem Funded.append {b0 : UInt8} {trusts : List Bool} (h : Funded b0 trusts)
    (hbudget : 0 < pathBudget b0 trusts) (edge : Bool) : Funded b0 (trusts ++ [edge]) := by
  intro before edge' after hsplit
  rcases List.eq_nil_or_concat after with rfl | ⟨init, last, rfl⟩
  · obtain ⟨rfl, -⟩ := List.append_inj' hsplit rfl
    exact hbudget
  · have hlast : trusts ++ [edge] = (before ++ edge' :: init) ++ [last] := by simpa using hsplit
    obtain ⟨rfl, -⟩ := List.append_inj' hlast rfl
    exact h before edge' init rfl

/-- The slack before a funded hop is at least one. -/
theorem Funded.one_le_slack {b0 : UInt8} {before after : List Bool} {edge : Bool}
    (h : Funded b0 (before ++ edge :: after)) : 1 ≤ slack b0.toNat before := by
  have hpos := h before edge after rfl
  have hbudget := pathBudget_eq b0 before
  rw [UInt8.lt_iff_toNat_lt] at hpos
  simp only [UInt8.toNat_zero] at hpos
  omega

theorem Funded.length_le {b0 : UInt8} {trusts : List Bool} (h : Funded b0 trusts) :
    trusts.length ≤ min b0.toNat 9 := by
  rcases List.eq_nil_or_concat trusts with rfl | ⟨before, last, rfl⟩
  · simp
  · rw [List.concat_eq_append] at h
    have hslack := h.one_le_slack
    have hstart := slack_le_start b0.toNat before
    rw [List.length_concat]
    have hnine : before.length ≤ 8 := by
      cases before with
      | nil => simp
      | cons first rest =>
        have hedge := slack_le_edge b0.toNat [] rest first
        have hcap : cap first ≤ 8 := by cases first <;> decide
        rw [List.nil_append] at hedge
        rw [List.length_cons]
        omega
    omega

/-- After an untrusted edge a chain goes on for two more hops at most. -/
theorem Funded.after_untrusted {b0 : UInt8} {before after : List Bool}
    (h : Funded b0 (before ++ false :: after)) : after.length ≤ 2 := by
  rcases List.eq_nil_or_concat after with rfl | ⟨init, last, rfl⟩
  · simp
  · have hsplit : before ++ false :: init.concat last = (before ++ false :: init) ++ [last] := by
      simp
    rw [hsplit] at h
    have hslack := h.one_le_slack
    have hedge := slack_le_edge b0.toNat before init false
    have hcap : cap false = 2 := rfl
    rw [List.length_concat]
    omega

/-! The budget in the network. -/

section Network

variable {ι : Type}

/-- The trust along the path of a request. -/
def edges (r : Request ι) : List Bool := r.path.map Hop.trusts

/-- Every request carries what its path leaves of `b0`, and only requests with
budget left were forwarded. -/
structure Budgeted (b0 : UInt8) (w : World ι) : Prop where
  recorded : Recorded w
  budget : ∀ r ∈ w.sent, r.program.depthBudget = pathBudget b0 (edges r)
  funded : ∀ r ∈ w.sent, Funded b0 (edges r)

theorem budgeted_start (node : ι → ServeNode) (dest : SocketAddr) (program : ProgramData) :
    Budgeted program.depthBudget (start node [(dest, program)]) where
  recorded := recorded_start node _
  budget := by
    intro r hr
    rw [List.mem_singleton.mp hr]
    rfl
  funded := by
    intro r hr before edge after hsplit
    rw [List.mem_singleton.mp hr] at hsplit
    simp [edges] at hsplit

/-- Each request has a path of its own: the last hop of a path tells the one
execution that forwarded it. -/
structure Traced (T : ι → Finset Target) (w : World ι) : Prop where
  recorded : Recorded w
  sent_nodup : (w.sent.map Request.path).Nodup
  executed_nodup : (w.executed.map fun x => (x.node, x.index)).Nodup
  forwarder : ∀ r ∈ w.sent, ∀ before hop, r.path = before ++ [hop] →
    ∃ k ∈ w.forwarded, ∃ x, w.executed[k]? = some x ∧ x.node = hop.forwarder ∧
      x.request.path = before
  hops : ∀ r ∈ w.sent, ∀ hop ∈ r.path, hop.target ∈ T hop.forwarder

theorem traced_start (T : ι → Finset Target) (node : ι → ServeNode) (dest : SocketAddr)
    (program : ProgramData) : Traced T (start node [(dest, program)]) where
  recorded := recorded_start node _
  sent_nodup := by simp [start]
  executed_nodup := by simp [start]
  forwarder := by
    intro r hr before hop hpath
    rw [List.mem_singleton.mp hr] at hpath
    simp at hpath
  hops := by
    intro r hr hop hmem
    rw [List.mem_singleton.mp hr] at hmem
    simp at hmem

/-- The executions at `k` and `l` are one if they are of one node and one path. -/
theorem Traced.index_eq {T : ι → Finset Target} {w : World ι} (h : Traced T w) {k l : ℕ}
    {x y : Execution ι} (hx : w.executed[k]? = some x) (hy : w.executed[l]? = some y)
    (hnode : x.node = y.node) (hpath : x.request.path = y.request.path) : k = l := by
  have hpaths : ∀ {z : Execution ι}, z ∈ w.executed →
      (w.sent.map Request.path)[z.index]? = some z.request.path := by
    intro z hz
    rw [List.getElem?_map, h.recorded z hz, Option.map_some]
  have hpx := hpaths (List.mem_of_getElem? hx)
  have hpy := hpaths (List.mem_of_getElem? hy)
  have hindex : x.index = y.index := by
    obtain ⟨hlt, -⟩ := List.getElem?_eq_some_iff.mp hpx
    apply (List.getElem?_inj hlt h.sent_nodup).mp
    rw [hpx, hpy, hpath]
  have hkey : ∀ {m : ℕ} {z : Execution ι}, w.executed[m]? = some z →
      (w.executed.map fun x => (x.node, x.index))[m]? = some (z.node, z.index) := by
    intro m z hz
    rw [List.getElem?_map, hz, Option.map_some]
  obtain ⟨hlt, -⟩ := List.getElem?_eq_some_iff.mp (hkey hx)
  apply (List.getElem?_inj hlt h.executed_nodup).mp
  rw [hkey hx, hkey hy, hnode, hindex]

/-- Over finitely many targets there are finitely many paths of `n` hops or fewer. -/
theorem finite_paths [Finite ι] (T : ι → Finset Target) (n : ℕ) :
    {path : List (Hop ι) | path.length ≤ n ∧
      ∀ hop ∈ path, hop.target ∈ T hop.forwarder}.Finite := by
  let Known := {hop : Hop ι // hop.target ∈ T hop.forwarder}
  have hknown : Finite Known := by
    let code : Known → (i : ι) × T i × Bool :=
      fun hop => ⟨hop.1.forwarder, ⟨hop.1.target, hop.2⟩, hop.1.trusts⟩
    apply Finite.of_injective code
    rintro ⟨⟨i, target, trusts⟩, htarget⟩ ⟨⟨j, target', trusts'⟩, htarget'⟩ hcode
    cases hcode
    rfl
  apply ((List.finite_length_le Known n).image (List.map Subtype.val)).subset
  rintro path ⟨hlength, hmem⟩
  refine ⟨path.attachWith _ hmem, ?_, List.attachWith_map_subtype_val _⟩
  change (path.attachWith _ hmem).length ≤ n
  rw [List.length_attachWith]
  exact hlength

variable (p : Platform)

/-- One forwarding sends requests of different paths. -/
theorem forwardedBy_nodup (w : World ι) (x : Execution ι)
    (resolve : PeerMetadata → Option SocketAddr) (observed : List (SocketAddr × Bytes))
    (freshUuid : Uuid) :
    ((forwardedBy p w x resolve observed freshUuid).map Request.path).Nodup := by
  have htargets : (targetsOf p w x resolve observed).Nodup := targets_nodup p _ _ _
  simp only [forwardedBy, ServeNode.discoveryForward]
  cases (w.node x.node).identityData with
  | none => exact List.nodup_nil
  | some ourIdentity =>
    simp only [List.map_map]
    apply List.Nodup.map_on _ (htargets.filter _)
    intro target _ other _ hpath
    have hhop := List.append_inj_right' hpath rfl
    exact congrArg Hop.target (List.singleton_inj.mp hhop)

variable [DecidableEq ι] (compiles : Bytes → Bool)

theorem budgeted_step {b0 : UInt8} {w : World ι} (h : Budgeted b0 w) (action : Action ι) :
    Budgeted b0 (step p compiles w action) := by
  have hsub : ∀ x ∈ w.executed, ∀ target : Target, 0 < x.request.program.depthBudget →
      ∀ r : Request ι, r.path =
        x.request.path ++ [⟨x.node, target, (w.node x.node).weTrust target⟩] →
      edges r = edges x.request ++ [(w.node x.node).weTrust target] ∧
        0 < pathBudget b0 (edges x.request) := by
    intro x hx target hbudget r hpath
    rw [h.budget _ (h.recorded.mem_sent hx)] at hbudget
    exact ⟨by simp [edges, hpath], hbudget⟩
  refine ⟨recorded_step p compiles h.recorded action, ?_, ?_⟩
  · intro r hr
    rcases mem_sent_step p compiles hr with hr | ⟨k, resolve, observed, freshUuid, x, target, -,
      hx, hruns, hsubRequest⟩
    · exact h.budget r hr
    · have hmem := List.mem_of_getElem? hx
      obtain ⟨hedges, -⟩ := hsub x hmem target hruns.2.1 r hsubRequest.path
      obtain ⟨ourIdentity, childUuid, -, hprogram⟩ := hsubRequest.program
      rw [hedges, pathBudget_append, hprogram, ServeNode.subRequest,
        h.budget _ (h.recorded.mem_sent hmem)]
  · intro r hr
    rcases mem_sent_step p compiles hr with hr | ⟨k, resolve, observed, freshUuid, x, target, -,
      hx, hruns, hsubRequest⟩
    · exact h.funded r hr
    · have hmem := List.mem_of_getElem? hx
      obtain ⟨hedges, hpos⟩ := hsub x hmem target hruns.2.1 r hsubRequest.path
      rw [hedges]
      exact (h.funded _ (h.recorded.mem_sent hmem)).append hpos _

theorem budgeted_run (node : ι → ServeNode) (dest : SocketAddr) (program : ProgramData)
    (actions : List (Action ι)) :
    Budgeted program.depthBudget
      (actions.foldl (step p compiles) (start node [(dest, program)])) := by
  have hstep : ∀ w (action : Action ι), Budgeted program.depthBudget w →
      Budgeted program.depthBudget (step p compiles w action) :=
    fun _ action h => budgeted_step p compiles h action
  exact invariant_run (step p compiles) hstep (budgeted_start node dest program) actions

/-! Finitely many requests. -/

/-- The network delivers no copy of a request twice to one node, and a node's
targets are among those of `T`. -/
def Finitely (T : ι → Finset Target) (w : World ι) : Action ι → Prop
  | .traffic _ _ => True
  | .deliver i index _ _ _ => (i, index) ∉ w.executed.map fun x => (x.node, x.index)
  | .forward k resolve observed _ =>
      ∀ x, w.executed[k]? = some x → ∀ target ∈ targetsOf p w x resolve observed,
        target ∈ T x.node

theorem traced_traffic {T : ι → Finset Target} {w : World ι} (h : Traced T w) (i : ι)
    (event : Event) : Traced T (step p compiles w (.traffic i event)) :=
  ⟨recorded_step p compiles h.recorded _, h.sent_nodup, h.executed_nodup, h.forwarder, h.hops⟩

theorem traced_deliver {T : ι → Finset Target} {w : World ι} (h : Traced T w) (i : ι)
    (index : ℕ) (addr : SocketAddr) (now : UInt64) (returned : Option (Option Uuid))
    (hfresh : (i, index) ∉ w.executed.map fun x => (x.node, x.index)) :
    Traced T (step p compiles w (.deliver i index addr now returned)) := by
  have hexecuted := executed_prefix_step p compiles w (.deliver i index addr now returned)
  have hsame : (step p compiles w (.deliver i index addr now returned)).sent = w.sent ∧
      (step p compiles w (.deliver i index addr now returned)).forwarded = w.forwarded := by
    simp only [step]
    cases w.sent[index]? <;> exact ⟨rfl, rfl⟩
  refine ⟨recorded_step p compiles h.recorded _, ?_, ?_, ?_, ?_⟩
  · rw [hsame.1]
    exact h.sent_nodup
  · simp only [step]
    cases hsent : w.sent[index]? with
    | none => exact h.executed_nodup
    | some request =>
      cases hstarted : startedAt p compiles w i request.program addr now with
      | none => simpa [hstarted] using h.executed_nodup
      | some running =>
        simp only [hstarted, Option.map_some, Option.toList_some, List.map_append, List.map_cons,
          List.map_nil]
        apply List.Nodup.append h.executed_nodup (List.nodup_singleton _)
        rw [List.disjoint_singleton]
        exact hfresh
  · intro r hr before hop hpath
    rw [hsame.1] at hr
    obtain ⟨k, hk, x, hx, hrest⟩ := h.forwarder r hr before hop hpath
    exact ⟨k, by rw [hsame.2]; exact hk, x, getElem?_of_prefix hexecuted hx, hrest⟩
  · rw [hsame.1]
    exact h.hops

theorem traced_forward {T : ι → Finset Target} {w : World ι} (h : Traced T w) (k : ℕ)
    (resolve : PeerMetadata → Option SocketAddr) (observed : List (SocketAddr × Bytes))
    (freshUuid : Uuid)
    (hT : ∀ x, w.executed[k]? = some x → ∀ target ∈ targetsOf p w x resolve observed,
      target ∈ T x.node) :
    Traced T (step p compiles w (.forward k resolve observed freshUuid)) := by
  have hrecorded := recorded_step p compiles h.recorded (.forward k resolve observed freshUuid)
  revert hrecorded
  simp only [step]
  cases hx : w.executed[k]? with
  | none => exact fun _ => h
  | some x =>
    simp only
    split_ifs with hruns
    · intro hrecorded
      have hnew : ∀ r ∈ forwardedBy p w x resolve observed freshUuid, ∃ hop : Hop ι,
          r.path = x.request.path ++ [hop] ∧ hop.forwarder = x.node ∧ hop.target ∈ T x.node := by
        intro r hr
        obtain ⟨target, hsub⟩ := mem_forwardedBy p hr
        exact ⟨_, hsub.path, rfl, hT x hx target hsub.target_mem⟩
      refine ⟨hrecorded, ?_, h.executed_nodup, ?_, ?_⟩
      · rw [List.map_append]
        apply List.Nodup.append h.sent_nodup (forwardedBy_nodup p w x resolve observed freshUuid)
        intro path hold hfresh
        obtain ⟨r, hr, rfl⟩ := List.mem_map.mp hold
        obtain ⟨r', hr', hpath⟩ := List.mem_map.mp hfresh
        obtain ⟨hop, hpath', hforwarder, -⟩ := hnew r' hr'
        -- a path that is there already was put there by the same execution
        obtain ⟨l, hl, y, hy, hynode, hypath⟩ := h.forwarder r hr _ hop (hpath.symm.trans hpath')
        have hkl : k = l := h.index_eq hx hy (by rw [hynode, hforwarder]) hypath.symm
        exact hruns.1 (hkl ▸ hl)
      · intro r hr before hop hpath
        rcases List.mem_append.mp hr with hr | hr
        · obtain ⟨l, hl, hrest⟩ := h.forwarder r hr before hop hpath
          exact ⟨l, List.mem_append_left _ hl, hrest⟩
        · obtain ⟨hop', hpath', hforwarder, -⟩ := hnew r hr
          obtain ⟨hbefore, hhop⟩ := List.append_inj' (hpath.symm.trans hpath') rfl
          rw [List.singleton_inj.mp hhop, hbefore]
          exact ⟨k, List.mem_append_right _ (List.mem_singleton_self k), x, hx, hforwarder.symm,
            rfl⟩
      · intro r hr hop hmem
        rcases List.mem_append.mp hr with hr | hr
        · exact h.hops r hr hop hmem
        · obtain ⟨hop', hpath', hforwarder, htarget⟩ := hnew r hr
          rw [hpath'] at hmem
          rcases List.mem_append.mp hmem with hmem | hmem
          · exact h.hops _ (h.recorded.mem_sent (List.mem_of_getElem? hx)) hop hmem
          · rw [List.mem_singleton.mp hmem, hforwarder]
            exact htarget
    · exact fun _ => h

theorem traced_step {T : ι → Finset Target} {w : World ι} {action : Action ι}
    (hfinite : Finitely p T w action) (h : Traced T w) : Traced T (step p compiles w action) := by
  cases action with
  | traffic i event => exact traced_traffic p compiles h i event
  | deliver i index addr now returned =>
    exact traced_deliver p compiles h i index addr now returned hfinite
  | forward k resolve observed freshUuid =>
    exact traced_forward p compiles h k resolve observed freshUuid hfinite

theorem traced_run {T : ι → Finset Target} (node : ι → ServeNode) (dest : SocketAddr)
    (program : ProgramData) {actions : List (Action ι)}
    (hfinite : EachStep (step p compiles) (Finitely p T) (start node [(dest, program)]) actions) :
    Traced T (actions.foldl (step p compiles) (start node [(dest, program)])) :=
  (everyState_of_eachStep (step p compiles) (fun _ _ hok h => traced_step p compiles hok h)
    (fun _ h => h) hfinite (traced_start T node dest program)).last

/-- However the trusted and the untrusted edges of a network follow each other,
the budget of every request is the closed form in the trust along its path. So a
chain has at most `min b0 9` hops and at most two after an untrusted edge, and
where the network is finite and copies no request one arriving request causes a
bounded number of requests, whatever the paths visit. -/
theorem budget_bounds_every_chain (node : ι → ServeNode) (dest : SocketAddr)
    (program : ProgramData) :
    (∀ actions : List (Action ι),
      ∀ r ∈ (actions.foldl (step p compiles) (start node [(dest, program)])).sent,
        (r.program.depthBudget.toNat : ℤ) = max 0 (slack program.depthBudget.toNat (edges r)) ∧
        r.path.length ≤ min program.depthBudget.toNat 9 ∧
        ∀ before after, edges r = before ++ false :: after → after.length ≤ 2) ∧
    ∀ [Finite ι] (T : ι → Finset Target), ∃ bound : ℕ, ∀ actions : List (Action ι),
      EachStep (step p compiles) (Finitely p T) (start node [(dest, program)]) actions →
        (actions.foldl (step p compiles) (start node [(dest, program)])).sent.length ≤ bound := by
  constructor
  · intro actions r hr
    have hbudgeted := budgeted_run p compiles node dest program actions
    have hfunded := hbudgeted.funded r hr
    refine ⟨?_, ?_, ?_⟩
    · rw [hbudgeted.budget r hr, pathBudget_eq]
    · have hlength := hfunded.length_le
      rwa [edges, List.length_map] at hlength
    · intro before after hsplit
      rw [hsplit] at hfunded
      exact hfunded.after_untrusted
  · intro _ T
    have hpaths := finite_paths T 9
    refine ⟨hpaths.toFinset.card, ?_⟩
    intro actions hfinite
    have htraced := traced_run p compiles node dest program hfinite
    have hbudgeted := budgeted_run p compiles node dest program actions
    rw [← List.length_map Request.path, ← List.toFinset_card_of_nodup htraced.sent_nodup]
    apply Finset.card_le_card
    intro path hpath
    obtain ⟨r, hr, rfl⟩ := List.mem_map.mp (List.mem_toFinset.mp hpath)
    have hlength := (hbudgeted.funded r hr).length_le
    rw [edges, List.length_map] at hlength
    rw [Set.Finite.mem_toFinset]
    exact ⟨by omega, htraced.hops r hr⟩

end Network

/-- The laptop and the server pass a request to and fro, neither knowing a key of the other:
the first edge leaves 2 hops of the 8, and whoever is granted 0 passes it on no more. -/
def toAndFro : List (Action Machine) :=
  LoopPrevention.asked ++
    [.forward 2 resolveIpv4
        [(.v4 0xC0A80101 50000, aliceKey), (.v4 0xC0A80114 50002, Machine.server.key)]
        (Vector.replicate 16 10),
      .deliver .server 3 (.v4 0xC0A8010A 50003) 1760000001 (some none),
      .forward 3 resolveIpv4 [(.v4 0xC0A8010A 50003, Machine.laptop.key)] (Vector.replicate 16 11)]

example : ((toAndFro.foldl (step machinePlatform fun _ => true)
    (LoopPrevention.askedStart none)).sent.map fun r => (edges r, r.program.depthBudget)) =
      [([], 8), ([false], 2), ([false, false], 1), ([false, false, false], 0)] := by
  decide +kernel

end Weverywhere.DepthBudget
