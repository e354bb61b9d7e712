import Mathlib.Algebra.BigOperators.Group.List.Basic
import VersionedContent.Proofs.Site.Rest
import VersionedContent.Proofs.Store.Copies

/-!
# What is counted as remaining

What remains of a chain on a branch is counted version by version. An edge whose
container follows several versions other than the pinned one is counted for each
of them. A container follows one schema version only, so that edges that remain of
a schema are counted once; embedded content may follow several versions of its
microschema within one container.
-/

namespace VersionedContent

/-- What is counted item by item comes to what is counted the other way round. -/
theorem sum_map_countP_comm {α β : Type} (p : α → β → Bool) (as : List α) (bs : List β) :
    (as.map fun a => bs.countP (p a)).sum = (bs.map fun b => as.countP (p · b)).sum := by
  induction as with
  | nil => simp
  | cons a rest ih =>
    have hfirst : bs.countP (p a) = (bs.map fun b => if p a b then 1 else 0).sum := by
      clear ih
      induction bs with
      | nil => rfl
      | cons b bs ih => rw [List.countP_cons, List.map_cons, List.sum_cons, ih, Nat.add_comm]
    simp only [List.map_cons, List.sum_cons, ih, hfirst, List.countP_cons, List.sum_map_add]
    exact Nat.add_comm _ _

/-- A sum is the number of its terms that are not zero, and what these exceed one by. -/
theorem sum_map_eq_length_filter_add {α : Type} (f : α → Nat) (list : List α) :
    (list.map f).sum = (list.filter fun a => f a ≠ 0).length +
      ((list.filter fun a => f a ≠ 0).map fun a => f a - 1).sum := by
  induction list with
  | nil => rfl
  | cons a rest ih =>
    by_cases ha : f a = 0
    · rw [List.filter_cons_of_neg (by simpa using ha), List.map_cons, List.sum_cons, ha, ih,
        Nat.zero_add]
    · rw [List.filter_cons_of_pos (by simpa using ha), List.map_cons, List.map_cons,
        List.sum_cons, List.sum_cons, List.length_cons, ih]
      omega

namespace Store

variable {store : Store} {branchId : Id} {kind : Kind} {name : String} {pinned : Id} {edge : Edge}

/-- The versions of a chain, other than a pinned one, that the container behind an edge follows. -/
def strays (store : Store) (kind : Kind) (name : String) (pinned : Id) (edge : Edge) :
    List Version :=
  (store.chainVersions kind name).filter fun version => version.id ≠ pinned &&
    (store.container? edge.containerId).any (followsVersion kind version.id)

/-- The edges of a branch whose container follows some version of a chain other than a pinned
one. -/
def strayEdges (store : Store) (branchId : Id) (kind : Kind) (name : String) (pinned : Id) :
    List Edge :=
  store.edges.rows.filter fun edge => edge.branchId = branchId &&
    (store.chainVersions kind name).any fun version => version.id ≠ pinned &&
      (store.container? edge.containerId).any (followsVersion kind version.id)

/-- How often the edges that remain are counted beyond once each. -/
def recounts (store : Store) (branchId : Id) (kind : Kind) (name : String) (pinned : Id) : Nat :=
  ((store.strayEdges branchId kind name pinned).map fun edge =>
    (store.strays kind name pinned edge).length - 1).sum

/-- The edges that are counted are those of the branch with something to count. -/
theorem strayEdges_eq (store : Store) (branchId : Id) (kind : Kind) (name : String)
    (pinned : Id) : store.strayEdges branchId kind name pinned =
      (store.edges.rows.filter fun edge => edge.branchId = branchId).filter fun edge =>
        (store.strays kind name pinned edge).length ≠ 0 := by
  rw [List.filter_filter]
  refine List.filter_congr fun edge _ => ?_
  rw [Bool.eq_iff_iff, Bool.and_eq_true, Bool.and_eq_true, and_comm, decide_eq_true_eq,
    decide_eq_true_eq]
  refine and_congr_left fun _ => ?_
  rw [List.any_eq_true, strays, ← List.countP_eq_length_filter, ← Nat.pos_iff_ne_zero,
    List.countP_pos_iff]

/-- Counting edges version by version counts versions edge by edge. -/
theorem sum_countEdges_eq (store : Store) (branchId : Id) (kind : Kind) (name : String)
    (pinned : Id) :
    (((store.chainVersions kind name).filter fun version => version.id ≠ pinned).map
        fun version => store.countEdges kind branchId version.id).sum =
      (store.strayEdges branchId kind name pinned).length +
        store.recounts branchId kind name pinned := by
  rw [recounts, strayEdges_eq, ← sum_map_eq_length_filter_add]
  simp only [countEdges_eq_countP]
  rw [sum_map_countP_comm]
  refine congrArg List.sum (List.map_congr_left fun edge _ => ?_)
  rw [List.countP_filter, List.countP_eq_length_filter, strays]
  simp only [Bool.and_comm]

/-- A container follows one version of a schema at most. -/
theorem length_strays_le (store : Store) (name : String) (pinned : Id) (edge : Edge) :
    (store.strays .schema name pinned edge).length ≤ 1 := by
  have hfollows : ∀ version ∈ store.strays .schema name pinned edge, ∀ container,
      store.container? edge.containerId = some container →
        version.id = container.schemaVersionId := by
    intro version hm container hc
    have hf := (List.mem_filter.mp hm).2
    rw [hc] at hf
    simp only [Option.any_some, followsVersion, Bool.and_eq_true, decide_eq_true_eq] at hf
    exact hf.2.symm
  have hnodup : ((store.strays .schema name pinned edge).map Version.id).Nodup :=
    (store.nodup_chainVersions .schema name).sublist (List.filter_sublist.map _)
  cases hc : store.container? edge.containerId with
  | none => simp [strays, hc]
  | some container =>
    generalize store.strays .schema name pinned edge = found at hfollows hnodup ⊢
    rcases found with _ | ⟨a, _ | ⟨b, rest⟩⟩
    · exact Nat.zero_le 1
    · exact Nat.le_refl 1
    · have ha := hfollows a (by simp) container hc
      have hb := hfollows b (by simp) container hc
      simp [ha, hb] at hnodup

/-- No edge is counted twice exactly when each that remains is counted for one version. -/
theorem recounts_eq_zero_iff : store.recounts branchId kind name pinned = 0 ↔
    ∀ edge ∈ store.strayEdges branchId kind name pinned,
      (store.strays kind name pinned edge).length = 1 := by
  rw [recounts, List.sum_eq_zero_iff_forall_eq_nat, List.forall_mem_map]
  refine forall₂_congr fun edge hm => ?_
  rw [strayEdges_eq] at hm
  have hne : (store.strays kind name pinned edge).length ≠ 0 :=
    of_decide_eq_true (List.mem_filter.mp hm).2
  omega

end Store

namespace Site

open VersionedContent.Action

variable {site : Site} {branchId : Id} {kind : Kind} {name : String} {pinned : Id}

/-- On every reachable site, what is counted as remaining of a chain on a branch that pins it is the
number of edges of the branch whose container follows another version of the chain than the pinned
one, and what these are counted for beyond one version each. It is just their number for schemas,
and for microschemas exactly when no container embeds content of two such versions. -/
theorem Reachable.remainingCount_eq_add_recounts (h : Reachable site)
    (hp : site.store.pin? branchId kind name = some pinned) :
    outcome (remainingCount branchId kind name) site =
        (.ok ((site.store.strayEdges branchId kind name pinned).length +
          site.store.recounts branchId kind name pinned), site) ∧
      (site.store.strayEdges branchId kind name pinned).length ≤
        site.store.edges.rows.countP (fun edge => edge.branchId = branchId) ∧
      (kind = .schema → site.store.recounts branchId kind name pinned = 0) ∧
      (site.store.recounts branchId kind name pinned = 0 ↔
        ∀ edge ∈ site.store.strayEdges branchId kind name pinned,
          (site.store.strays kind name pinned edge).length = 1) := by
  refine ⟨?_, ?_, ?_, Store.recounts_eq_zero_iff⟩
  · rw [outcome_remainingCount h.sound hp, Store.sum_countEdges_eq]
  · rw [Store.strayEdges_eq, List.countP_eq_length_filter]
    exact List.length_filter_le _ _
  · rintro rfl
    refine List.sum_eq_zero_iff_forall_eq_nat.mpr (List.forall_mem_map.mpr fun edge _ => ?_)
    exact Nat.sub_eq_zero_of_le (site.store.length_strays_le name pinned edge)

/-- A container that embeds content of two old versions is counted twice. -/
theorem remainingCount_of_mixed_gallery :
    let image (fields : List FieldSpec) : Definition :=
      { name := "image", fields := { name := "alt", type := .string } :: fields }
    let title : FieldSpec := { name := "title", type := .string }
    let calls : List Call :=
      [.createSchema .microschema (image []),
        .updateSchema .microschema "image" (image [title]) [] none,
        .updateSchema .microschema "image"
          (image [title, { name := "credit", type := .string }]) [] none,
        .createSchema .schema
          { name := "article",
            fields := [{ name := "gallery", type := .list, listType := some .micronode,
                         allow := ["image"] }] },
        .createBranch "p" "main" none, .assignLatest "@b1" .microschema "image",
        .addContent "@b1" "n" "en" "@v4"
          [("gallery", .list [.micronode ⟨"image", "@v1", []⟩, .micronode ⟨"image", "@v2", []⟩])]
          [.draft]]
    let site := Call.afterAll (.empty (.ticking ⟨0, 0⟩) 10 10) calls
    site.store.pin? "@b1" .microschema "image" = some "@v3" ∧
      site.store.edges.rows.countP (fun edge => edge.branchId = "@b1") = 1 ∧
      (site.store.strayEdges "@b1" .microschema "image" "@v3").length = 1 ∧
      outcome (remainingCount "@b1" .microschema "image") site = (.ok 2, site) := by
  intro image title calls site
  have hgiven : Call.areGiven (.empty (.ticking ⟨0, 0⟩) 10 10) calls = true := by decide +kernel
  have hreached : Reachable site :=
    (Managed.calls (.empty (.ticking ⟨0, 0⟩) 10 10) hgiven).reachable
  have hpinned : site.store.pin? "@b1" .microschema "image" = some "@v3" := by decide +kernel
  have hstray : (site.store.strayEdges "@b1" .microschema "image" "@v3").length = 1 := by
    decide +kernel
  have hrecounts : site.store.recounts "@b1" .microschema "image" "@v3" = 1 := by decide +kernel
  have hcount := (hreached.remainingCount_eq_add_recounts hpinned).1
  rw [hstray, hrecounts] at hcount
  exact ⟨hpinned, by decide +kernel, hstray, hcount⟩

end Site

end VersionedContent
