import Mathlib.Data.List.Basic
import VersionedContent.Schema.Kind

/-!
# The course of content

The moves that stand in line carry content along a chain of versions. Whatever
stands at a version of the chain is to land on the pinned one when all of them
have been made in their order. Everything that happens to the chain, the pin,
the line and the content keeps it so.
-/

namespace VersionedContent

/-- Where content of a version lands after moves between versions were made in their order. -/
def landing (moves : List (Id × Id)) (version : Id) : Id :=
  moves.foldl (fun place move => if place = move.1 then move.2 else place) version

/-- The first move may carry content on to where the others begin. -/
theorem landing_cons (move : Id × Id) (moves : List (Id × Id)) (version : Id) :
    landing (move :: moves) version =
      landing moves (if version = move.1 then move.2 else version) := rfl

/-- The last move may carry content on from where the others end. -/
theorem landing_concat (moves : List (Id × Id)) (move : Id × Id) (version : Id) :
    landing (moves ++ [move]) version =
      if landing moves version = move.1 then move.2 else landing moves version := by
  rw [landing, List.foldl_append, landing, List.foldl_cons, List.foldl_nil]

/-- Content stays where no move begins. -/
theorem landing_of_forall_ne {moves : List (Id × Id)} {version : Id}
    (h : ∀ move ∈ moves, move.1 ≠ version) : landing moves version = version := by
  induction moves with
  | nil => rfl
  | cons move rest ih =>
    rw [landing_cons, if_neg (h move List.mem_cons_self).symm]
    exact ih fun other hm => h other (List.mem_cons_of_mem _ hm)

/-- Where a move may lead, for a chain with a pin among all stored versions. -/
inductive Leads (stored chain : List Id) (pin : Option Id) (source target : Id) : Prop
  /-- It leads forward in the chain, no further than to the pin. -/
  | forward {pinned : Id} (pin_eq : pin = some pinned) (source_mem : source ∈ chain)
      (target_mem : target ∈ chain) (lt : chain.idxOf source < chain.idxOf target)
      (le : chain.idxOf target ≤ chain.idxOf pinned)
  /-- It leads from one version outside of the chain to another one. -/
  | apart (source_mem : source ∈ stored) (target_mem : target ∈ stored)
      (source_notMem : source ∉ chain) (target_notMem : target ∉ chain) (ne : source ≠ target)

section Leads

variable {stored chain : List Id} {pin : Option Id} {source target : Id}

/-- A move leads away. -/
theorem Leads.ne (h : Leads stored chain pin source target) : source ≠ target := by
  cases h with
  | forward _ _ _ lt _ =>
    rintro rfl
    exact Nat.lt_irrefl _ lt
  | apart _ _ _ _ ne => exact ne

/-- No move leads away from the pin. -/
theorem Leads.source_ne {pinned : Id} (h : Leads stored chain pin source target)
    (hp : pin = some pinned) (hm : pinned ∈ chain) : source ≠ pinned := by
  rintro rfl
  cases h with
  | forward pin_eq _ _ lt le =>
    obtain rfl := Option.some.inj (hp.symm.trans pin_eq)
    omega
  | apart _ _ source_notMem _ _ => exact source_notMem hm

/-- A move may go on when a later version is pinned. -/
theorem Leads.repin {version : Id} (h : Leads stored chain pin source target)
    (hle : ∀ pinned, pin = some pinned → chain.idxOf pinned ≤ chain.idxOf version) :
    Leads stored chain (some version) source target := by
  cases h with
  | forward pin_eq source_mem target_mem lt le =>
    exact .forward rfl source_mem target_mem lt (Nat.le_trans le (hle _ pin_eq))
  | apart source_mem target_mem source_notMem target_notMem ne =>
    exact .apart source_mem target_mem source_notMem target_notMem ne

/-- A move may go on when versions that were not stored follow at the end of the chain. -/
theorem Leads.grow {stored' added : List Id} (h : Leads stored chain pin source target)
    (hpin : ∀ pinned, pin = some pinned → pinned ∈ chain) (hs : ∀ id ∈ stored, id ∈ stored')
    (hadded : ∀ id ∈ added, id ∉ stored) : Leads stored' (chain ++ added) pin source target := by
  cases h with
  | forward pin_eq source_mem target_mem lt le =>
    have hpinned := hpin _ pin_eq
    refine .forward pin_eq (List.mem_append_left _ source_mem) (List.mem_append_left _ target_mem)
      ?_ ?_
    · rwa [List.idxOf_append_of_mem source_mem, List.idxOf_append_of_mem target_mem]
    · rwa [List.idxOf_append_of_mem target_mem, List.idxOf_append_of_mem hpinned]
  | apart source_mem target_mem source_notMem target_notMem ne =>
    refine .apart (hs _ source_mem) (hs _ target_mem) ?_ ?_ ne
    · rw [List.mem_append]
      exact fun hm => hm.elim source_notMem fun hin => hadded _ hin source_mem
    · rw [List.mem_append]
      exact fun hm => hm.elim target_notMem fun hin => hadded _ hin target_mem

end Leads

/-- Whether everything that stands at a version of a chain lands on the pinned one. -/
structure Course (stored chain : List Id) (pin : Option Id) (moves : List (Id × Id))
    (stands : Id → Prop) : Prop where
  /-- What is pinned is in the chain. -/
  pinned : ∀ version, pin = some version → version ∈ chain
  /-- Every move leads to where it may. -/
  leads : ∀ move ∈ moves, Leads stored chain pin move.1 move.2
  /-- What stands in the chain is no further than the pin, and lands there. -/
  lands : ∀ version ∈ chain, stands version → ∃ pinned, pin = some pinned ∧
    chain.idxOf version ≤ chain.idxOf pinned ∧ landing moves version = pinned

namespace Course

variable {stored chain : List Id} {pin : Option Id} {moves : List (Id × Id)} {stands : Id → Prop}

/-- Versions that were not stored may follow at the end of the chain. -/
theorem grow (h : Course stored chain pin moves stands) {stored' added : List Id}
    (hs : ∀ id ∈ stored, id ∈ stored') (hadded : ∀ id ∈ added, id ∉ stored)
    (hstands : ∀ id ∈ added, ¬ stands id) :
    Course stored' (chain ++ added) pin moves stands where
  pinned version hp := List.mem_append_left _ (h.pinned version hp)
  leads move hm := (h.leads move hm).grow h.pinned hs hadded
  lands version hm hv := by
    rcases List.mem_append.mp hm with hm | hm
    · obtain ⟨pinned, hp, hle, hland⟩ := h.lands version hm hv
      refine ⟨pinned, hp, ?_, hland⟩
      rwa [List.idxOf_append_of_mem hm, List.idxOf_append_of_mem (h.pinned pinned hp)]
    · exact absurd hv (hstands version hm)

/-- Less may stand, and more at the pin. -/
theorem stand (h : Course stored chain pin moves stands) {stands' : Id → Prop}
    (hs : ∀ version, stands' version → stands version ∨ pin = some version) :
    Course stored chain pin moves stands' where
  pinned := h.pinned
  leads := h.leads
  lands version hm hv := by
    rcases hs version hv with hv | hp
    · exact h.lands version hm hv
    · refine ⟨version, hp, Nat.le_refl _, landing_of_forall_ne fun move hmove => ?_⟩
      exact (h.leads move hmove).source_ne hp hm

/-- The first move may be made. -/
theorem advance {source target : Id} {stands' : Id → Prop}
    (h : Course stored chain pin ((source, target) :: moves) stands)
    (hs : ∀ version, stands' version →
      version = target ∧ stands source ∨ version ≠ source ∧ stands version) :
    Course stored chain pin moves stands' where
  pinned := h.pinned
  leads move hm := h.leads move (List.mem_cons_of_mem _ hm)
  lands version hm hv := by
    rcases hs version hv with ⟨rfl, hsource⟩ | ⟨hne, hv⟩
    · cases h.leads (source, version) List.mem_cons_self with
      | forward pin_eq source_mem target_mem lt le =>
        obtain ⟨pinned, hp, -, hland⟩ := h.lands source source_mem hsource
        obtain rfl := Option.some.inj (pin_eq.symm.trans hp)
        rw [landing_cons, if_pos rfl] at hland
        exact ⟨_, hp, le, hland⟩
      | apart _ _ _ target_notMem _ => exact absurd hm target_notMem
    · obtain ⟨pinned, hp, hle, hland⟩ := h.lands version hm hv
      rw [landing_cons, if_neg hne] at hland
      exact ⟨pinned, hp, hle, hland⟩

/-- A later version may be pinned when a move from the former one is queued. -/
theorem repin {former version : Id} (h : Course stored chain (some former) moves stands)
    (hv : version ∈ chain) (hlt : chain.idxOf former < chain.idxOf version) :
    Course stored chain (some version) (moves ++ [(former, version)]) stands where
  pinned _ hp := Option.some.inj hp ▸ hv
  leads move hm := by
    rcases List.mem_append.mp hm with hm | hm
    · refine (h.leads move hm).repin fun pinned hp => ?_
      rw [← Option.some.inj hp]
      exact Nat.le_of_lt hlt
    · obtain rfl := List.mem_singleton.mp hm
      exact .forward rfl (h.pinned former rfl) hv hlt (Nat.le_refl _)
  lands other hm ho := by
    obtain ⟨pinned, hp, hle, hland⟩ := h.lands other hm ho
    obtain rfl := Option.some.inj hp
    refine ⟨version, rfl, Nat.le_trans hle (Nat.le_of_lt hlt), ?_⟩
    rw [landing_concat, if_pos hland]

/-- No move is needed for a later version to be pinned when nothing stands in the chain. -/
theorem repin_of_forall_not (h : Course stored chain pin moves stands) {version : Id}
    (hv : version ∈ chain)
    (hle : ∀ pinned, pin = some pinned → chain.idxOf pinned ≤ chain.idxOf version)
    (hnone : ∀ other ∈ chain, ¬ stands other) :
    Course stored chain (some version) moves stands where
  pinned _ hp := Option.some.inj hp ▸ hv
  leads move hm := (h.leads move hm).repin hle
  lands other hm ho := absurd ho (hnone other hm)

/-- A move that leads to where it may can be queued: nothing lands where it begins. -/
theorem queue (h : Course stored chain pin moves stands) {source target : Id}
    (hlead : Leads stored chain pin source target) :
    Course stored chain pin (moves ++ [(source, target)]) stands where
  pinned := h.pinned
  leads move hm := by
    rcases List.mem_append.mp hm with hm | hm
    · exact h.leads move hm
    · obtain rfl := List.mem_singleton.mp hm
      exact hlead
  lands version hm hv := by
    obtain ⟨pinned, hp, hle, hland⟩ := h.lands version hm hv
    refine ⟨pinned, hp, hle, ?_⟩
    have hne := hlead.source_ne hp (h.pinned pinned hp)
    rw [landing_concat, if_neg (hland ▸ hne.symm), hland]

/-- When no move is left, everything in the chain stands at the pin. -/
theorem eq_pin (h : Course stored chain pin [] stands) {version : Id} (hm : version ∈ chain)
    (hv : stands version) : pin = some version := by
  obtain ⟨pinned, hp, -, hland⟩ := h.lands version hm hv
  rw [hp, ← hland]
  rfl

/-- No move is needed at first when everything in the chain stands at the pin. -/
theorem of_eq_pin (hpin : ∀ version, pin = some version → version ∈ chain)
    (h : ∀ version ∈ chain, stands version → pin = some version) :
    Course stored chain pin [] stands where
  pinned := hpin
  leads _ hm := (List.not_mem_nil hm).elim
  lands version hm hv := ⟨version, h version hm hv, Nat.le_refl _, rfl⟩

end Course

end VersionedContent
