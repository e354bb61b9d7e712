import VersionedContent.Proofs.Site.Sound
import VersionedContent.Proofs.Store.Places

/-!
# Walking the chains of a sound site

On a sound site a walk over a chain passes all of its versions, from the first
to the latest, and changes nothing.
-/

namespace VersionedContent

namespace Store.Chained

variable {store : Store} {issued : Series} {kind : Kind} {name : String}

/-- The first version of a chain is found as its root. -/
theorem rootVersion?_eq (h : Chained store issued) :
    store.rootVersion? kind name = (store.chainVersions kind name)[0]? := by
  rw [rootVersion?, (h.linked kind name).find?_isRoot, List.head?_eq_getElem?]

end Store.Chained

namespace Site

open VersionedContent.Action

variable {site : Site} {kind : Kind} {name : String}

/-- Where a walk stands that has passed some versions of a chain. -/
def cursorAfter (chain : List Version) : Nat → ChainCursor
  | 0 => .start
  | i + 1 =>
    match chain[i + 1]? with
    | some version => .at version.id
    | none => .done

/-- Whether a walk has passed just the first versions of a chain. -/
structure Passed (chain : List Version) (kind : Kind) (name : String) (i : Nat)
    (walk : ChainWalk) : Prop where
  /-- The walk is over the chain. -/
  kind : walk.kind = kind
  /-- The walk is over the chain. -/
  name : walk.name = name
  /-- It goes on to the version that follows. -/
  cursor : walk.cursor = cursorAfter chain i
  /-- It has seen no other version. -/
  seen : ∀ id ∈ walk.seen, id ∈ (chain.take i).map Version.id

/-- A version that a walk has not passed is passed next. -/
theorem Passed.stepTo {chain : List Version} (hlinked : Version.Linked chain)
    (hn : (chain.map Version.id).Nodup) {i : Nat} {walk : ChainWalk}
    (hw : Passed chain kind name i walk) {version : Version} (hv : chain[i]? = some version) :
    ∃ walk', walk.stepTo version = (.ok (some version), walk') ∧
      Passed chain kind name (i + 1) walk' := by
  have hsplit : chain = chain.take i ++ version :: chain.drop (i + 1) := by
    obtain ⟨hi, rfl⟩ := List.getElem?_eq_some_iff.mp hv
    rw [← List.drop_eq_getElem_cons hi, List.take_append_drop]
  have hnot : version.id ∉ walk.seen := by
    intro hm
    have hin := hw.seen _ hm
    rw [hsplit, List.map_append, List.nodup_append] at hn
    exact hn.2.2 version.id hin version.id (by simp) rfl
  unfold ChainWalk.stepTo
  rw [if_neg hnot]
  refine ⟨_, rfl, ⟨hw.kind, hw.name, ?_, ?_⟩⟩
  · rw [hlinked.next hv, cursorAfter]
    cases chain[i + 1]? <;> rfl
  · intro id hm
    obtain ⟨hi, hget⟩ := List.getElem?_eq_some_iff.mp hv
    rw [List.take_succ_eq_append_getElem hi, hget, List.map_append, List.mem_append]
    rcases List.mem_cons.mp hm with rfl | hm
    · exact .inr (by simp)
    · exact .inl (hw.seen id hm)

/-- A walk goes on to the next version of its chain, if there is one. -/
theorem Passed.next (h : Sound site) {i : Nat} {walk : ChainWalk}
    (hw : Passed (site.store.chainVersions kind name) kind name i walk)
    (hi : i ≤ (site.store.chainVersions kind name).length) :
    ∃ walk', outcome walk.next site =
        (.ok (.ok (site.store.chainVersions kind name)[i]?, walk'), site) ∧
      (i < (site.store.chainVersions kind name).length →
        Passed (site.store.chainVersions kind name) kind name (i + 1) walk') := by
  have hlinked := h.chained.linked kind name
  have hnodup := site.store.nodup_chainVersions kind name
  unfold ChainWalk.next
  rw [hw.cursor]
  cases i with
  | zero =>
    simp only [cursorAfter]
    rw [hw.kind, hw.name, outcome_bind_of_ok (outcome_attempt _ _),
      outcome_rootVersion? h.outages, h.chained.rootVersion?_eq]
    cases hv : (site.store.chainVersions kind name)[0]? with
    | none =>
      refine ⟨_, rfl, fun hl => ?_⟩
      rw [List.getElem?_eq_getElem hl] at hv
      cases hv
    | some version =>
      obtain ⟨walk', hs, hp⟩ := hw.stepTo hlinked hnodup hv
      exact ⟨walk', by rw [← hs]; rfl, fun _ => hp⟩
  | succ i =>
    simp only [cursorAfter]
    cases hv : (site.store.chainVersions kind name)[i + 1]? with
    | none =>
      refine ⟨walk, rfl, fun hl => ?_⟩
      rw [List.getElem?_eq_getElem hl] at hv
      cases hv
    | some version =>
      obtain ⟨walk', hs, hp⟩ := hw.stepTo hlinked hnodup hv
      dsimp only
      rw [outcome_bind_of_ok (outcome_query _ site),
        Store.version?_of_mem_chainVersions (List.mem_of_getElem? hv)]
      exact ⟨walk', by rw [← hs]; rfl, fun _ => hp⟩

/-- A walk collects the rest of its chain. -/
theorem Passed.collect (h : Sound site) (fuel : Nat) {i : Nat} {walk : ChainWalk}
    (hw : Passed (site.store.chainVersions kind name) kind name i walk)
    (hi : i ≤ (site.store.chainVersions kind name).length)
    (hf : (site.store.chainVersions kind name).length < i + fuel) (passed : List Version) :
    ∃ walk', outcome (walk.collect fuel passed) site =
      (.ok (.ok (passed ++ (site.store.chainVersions kind name).drop i), walk'), site) := by
  induction fuel generalizing i walk passed with
  | zero => omega
  | succ fuel ih =>
    obtain ⟨walk', hn, hp⟩ := hw.next h hi
    rw [ChainWalk.collect, outcome_bind_of_ok hn]
    by_cases hlt : i < (site.store.chainVersions kind name).length
    · rw [List.getElem?_eq_getElem hlt]
      obtain ⟨walk'', hr⟩ := ih (hp hlt) hlt (by omega)
        (passed ++ [(site.store.chainVersions kind name)[i]])
      refine ⟨walk'', hr.trans ?_⟩
      rw [List.append_assoc, List.singleton_append, ← List.drop_eq_getElem_cons hlt]
    · rw [List.getElem?_eq_none (by omega), List.drop_eq_nil_of_le (by omega), List.append_nil]
      exact ⟨walk', rfl⟩

/-- All versions of a chain are walked over, from the first to the latest. -/
theorem outcome_versions (h : Sound site) (kind : Kind) (name : String) :
    outcome (versions kind name) site = (.ok (site.store.chainVersions kind name), site) := by
  have hstart : Passed (site.store.chainVersions kind name) kind name 0
      { kind := kind, name := name } := ⟨rfl, rfl, rfl, by simp⟩
  have hsize : (site.store.chainVersions kind name).length ≤ site.store.versions.size :=
    List.length_filter_le _ _
  obtain ⟨walk, hc⟩ := hstart.collect h (site.store.versions.size + 2) (Nat.zero_le _)
    (by omega) []
  unfold versions ChainWalk.collectAll
  rw [bind_assoc, outcome_bind_of_ok (outcome_query _ site), outcome_bind_of_ok hc]
  rfl

/-- A version that is stored is looked up by its identifier. -/
theorem outcome_version {id : Id} {version : Version} (hv : site.store.version? id = some version) :
    outcome (Site.version id) site = (.ok version, site) := by
  unfold Site.version
  rw [outcome_bind_of_ok (outcome_query _ site), hv]
  rfl

/-- A version that is not stored is not found. -/
theorem outcome_version_of_none {id : Id} (hv : site.store.version? id = none) :
    ∃ failure, outcome (Site.version id) site = (.error failure, site) := by
  unfold Site.version
  rw [outcome_bind_of_ok (outcome_query _ site), hv]
  exact ⟨_, rfl⟩

/-- Two places of a chain with one identifier are the same. -/
theorem place_eq_of_id_eq {i j : Nat} {a b : Version}
    (ha : (site.store.chainVersions kind name)[i]? = some a)
    (hb : (site.store.chainVersions kind name)[j]? = some b) (he : a.id = b.id) : i = j := by
  obtain ⟨hi, -⟩ := List.getElem?_eq_some_iff.mp ha
  have hnodup := site.store.nodup_chainVersions kind name
  refine (List.getElem?_inj (by rw [List.length_map]; exact hi) hnodup).mp ?_
  rw [List.getElem?_map, List.getElem?_map, ha, hb, Option.map_some, Option.map_some, he]

/-- Links lead on from a place of a chain to another one if that comes no earlier, and not too far
off. -/
theorem outcome_stepsTo (h : Sound site) {j : Nat} {target : Version}
    (ht : (site.store.chainVersions kind name)[j]? = some target) (fuel i : Nat) :
    outcome
        (stepsTo .ample target.id fuel
          ((site.store.chainVersions kind name)[i]?.map Version.id)) site =
      (.ok (if i ≤ j ∧ j < i + fuel then
        some (((site.store.chainVersions kind name).drop i).take (j - i + 1))
          else none), site) := by
  obtain ⟨hj, -⟩ := List.getElem?_eq_some_iff.mp ht
  induction fuel generalizing i with
  | zero =>
    rw [if_neg (by omega)]
    cases (site.store.chainVersions kind name)[i]? <;> rfl
  | succ fuel ih =>
    cases hv : (site.store.chainVersions kind name)[i]? with
    | none =>
      have hi := List.getElem?_eq_none_iff.mp hv
      rw [if_neg (by omega)]
      rfl
    | some step =>
      obtain ⟨hi, hget⟩ := List.getElem?_eq_some_iff.mp hv
      have hdrop : (site.store.chainVersions kind name).drop i =
          step :: (site.store.chainVersions kind name).drop (i + 1) := by
        rw [← hget, ← List.drop_eq_getElem_cons hi]
      have hfound := Store.version?_of_mem_chainVersions (List.mem_of_getElem? hv)
      rw [Option.map_some, stepsTo, outcome_bind_of_ok (outcome_version hfound)]
      by_cases hid : step.id = target.id
      · obtain rfl := place_eq_of_id_eq hv ht hid
        rw [if_pos hid, if_pos (by omega), hdrop, Nat.sub_self]
        rfl
      · have hne : i ≠ j := by
          rintro rfl
          exact hid (congrArg Version.id (Option.some.inj (hv.symm.trans ht)))
        rw [if_neg hid, (h.chained.linked kind name).next hv, outcome_bind_of_ok (ih (i + 1))]
        by_cases hle : i ≤ j ∧ j < i + (fuel + 1)
        · rw [if_pos hle, if_pos (by omega), hdrop]
          have hsub : j - i + 1 = (j - (i + 1) + 1) + 1 := by omega
          rw [hsub, List.take_succ_cons]
          rfl
        · rw [if_neg hle, if_neg (by omega)]
          rfl

/-- The versions between two places of a chain are those after the first up to the second; there
are none when the second place comes earlier. -/
theorem outcome_versionsBetween (h : Sound site) {i j : Nat} {source target : Version}
    (hs : (site.store.chainVersions kind name)[i]? = some source)
    (ht : (site.store.chainVersions kind name)[j]? = some target) :
    outcome (versionsBetween source target) site =
      if i ≤ j then
        (.ok (((site.store.chainVersions kind name).drop (i + 1)).take (j - i)), site)
      else (.error (.conflict (.notAhead target.kind target.name target.number source.number)),
        site) := by
  obtain ⟨hj, -⟩ := List.getElem?_eq_some_iff.mp ht
  obtain ⟨-, hsk, hsn⟩ := Store.mem_chainVersions.mp (List.mem_of_getElem? hs)
  obtain ⟨-, htk, htn⟩ := Store.mem_chainVersions.mp (List.mem_of_getElem? ht)
  have hsize : (site.store.chainVersions kind name).length ≤ site.store.versions.size :=
    List.length_filter_le _ _
  have hchain : ¬(source.kind ≠ target.kind ∨ source.name ≠ target.name) := by
    simp [hsk, hsn, htk, htn]
  unfold versionsBetween
  dsimp only
  rw [if_neg hchain]
  by_cases hid : source.id = target.id
  · obtain rfl := place_eq_of_id_eq hs ht hid
    rw [if_pos hid, if_pos (Nat.le_refl i), Nat.sub_self, List.take_zero]
    rfl
  · have hne : i ≠ j := by
      rintro rfl
      exact hid (congrArg Version.id (Option.some.inj (hs.symm.trans ht)))
    have hsteps := outcome_stepsTo h ht (site.store.versions.size + 1) (i + 1)
    rw [if_neg hid, outcome_bind_of_ok (outcome_query _ site), Limit.rounds_ample,
      (h.chained.linked kind name).next hs, outcome_bind_of_ok hsteps]
    by_cases hle : i ≤ j
    · have hsub : j - (i + 1) + 1 = j - i := by omega
      rw [if_pos hle, if_pos (by omega), hsub]
      rfl
    · rw [if_neg hle, if_neg (by omega)]
      rfl

/-- Where there is a way between two places of a chain, it holds the versions after the first up to
the second. -/
theorem of_outcome_versionsBetween_eq_ok (h : Sound site) {i j : Nat} {source target : Version}
    (hs : (site.store.chainVersions kind name)[i]? = some source)
    (ht : (site.store.chainVersions kind name)[j]? = some target) {steps : List Version}
    {next : Site} (ho : outcome (versionsBetween source target) site = (.ok steps, next)) :
    i ≤ j ∧ steps = ((site.store.chainVersions kind name).drop (i + 1)).take (j - i) := by
  rw [outcome_versionsBetween h hs ht] at ho
  by_cases hle : i ≤ j
  · rw [if_pos hle] at ho
    exact ⟨hle, (Except.ok.inj (congrArg Prod.fst ho)).symm⟩
  · rw [if_neg hle] at ho
    cases congrArg Prod.fst ho

/-- While a chain can be numbered, the way from one of its versions to another is open exactly when
the number of the first is no higher. -/
theorem outcome_versionsBetween_of_mem (h : Sound site) {source target : Version}
    (hs : source ∈ site.store.chainVersions target.kind target.name)
    (ht : target ∈ site.store.versions.rows)
    (hl : (site.store.chainVersions target.kind target.name).length < 4294967296) :
    outcome (versionsBetween source target) site =
      if source.number ≤ target.number then (.ok (site.store.versionsAfter source target), site)
      else (.error (.conflict (.notAhead target.kind target.name target.number source.number)),
        site) := by
  obtain ⟨i, hi⟩ := List.mem_iff_getElem?.mp hs
  obtain ⟨j, hj⟩ := Store.exists_getElem?_of_mem ht
  have hplaces : source.number ≤ target.number ↔ i ≤ j := by
    rw [h.chained.number_eq hl hi, h.chained.number_eq hl hj]
    omega
  rw [outcome_versionsBetween h hi hj, h.chained.versionsAfter_eq hl hi hj]
  exact if_congr hplaces.symm rfl rfl

end Site

end VersionedContent
