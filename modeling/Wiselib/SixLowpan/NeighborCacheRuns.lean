import Wiselib.SixLowpan.NeighborCache

/-!
# Consistency of the neighbor cache

The entries of the cache that are not garbage are to hold different addresses,
the default routers are to be entries marked as routers, and a lookup is to
answer with the registered entry of an address.  Each of the three is lost in
one way only, and each condition below says when an operation goes that way;
runs that never do keep the property.
-/

namespace Wiselib.SixLowpan.NeighborCache

open Transition

variable {cache : NeighborCache}

/-! ## The three properties -/

/-- No two entries in use hold the same address. -/
def AddressesDistinct (cache : NeighborCache) : Prop :=
  ∀ i k, (cache.neighbors i).status ≠ .garbageCollectible →
    (cache.neighbors k).status ≠ .garbageCollectible →
    (cache.neighbors i).ipAddress = (cache.neighbors k).ipAddress → i = k

/-- Every default router is an entry in use that is marked as a router. -/
def RoutersPointToRouters (cache : NeighborCache) : Prop :=
  ∀ r pointer, (cache.routers r).neighborPointer = some pointer →
    ∃ i : Fin lowpanMaxOfNeighbors, pointer = i ∧
      (cache.neighbors i).status ≠ .garbageCollectible ∧ (cache.neighbors i).isRouter = true

/-- A lookup answers with the registered entry of the address, and with 0 without one. -/
def LookupCorrect (cache : NeighborCache) : Prop :=
  ∀ ipAddress,
    (∃ i, (cache.neighbors i).status = .registered ∧
        (cache.neighbors i).ipAddress = ipAddress ∧
        cache.getLinkLayerAddressForNeighbor ipAddress = (cache.neighbors i).linkLayerAddress) ∨
      ((∀ i, (cache.neighbors i).status = .registered →
          (cache.neighbors i).ipAddress ≠ ipAddress) ∧
        cache.getLinkLayerAddressForNeighbor ipAddress = 0)

/-! ## Addresses in use -/

/-- The operation gives the entry its search stops at no address that another entry in use
holds.  The entry takes one over in two ways: it was tentative, holds the link-local form and
is registered with the full address; or it was garbage and is revived. -/
def KeepsDistinct (cache : NeighborCache) (op : Operation) : Prop :=
  ∀ call ∈ op.request cache, ∀ i, cache.findAddress call.ipAddress = some i →
    (cache.neighbors i).linkLayerAddress = call.llAddress →
    (call.lifetime ≠ 0 ∨ call.isTentative = true) →
    ∀ k, k ≠ i → (cache.neighbors k).status ≠ .garbageCollectible →
      (cache.neighbors k).ipAddress ≠ (renewed (cache.neighbors i) call).ipAddress

/-- An entry in use that is written holds an address of its own. -/
theorem Written.address_fresh {op : Operation} {call : NeighborUpdate}
    {i : Fin lowpanMaxOfNeighbors} {entry : Neighbor} (hkeeps : KeepsDistinct cache op)
    (hcall : call ∈ op.request cache) (hwritten : cache.Written call i entry)
    (hlive : entry.status ≠ .garbageCollectible) {k : Fin lowpanMaxOfNeighbors} (hk : k ≠ i)
    (hother : (cache.neighbors k).status ≠ .garbageCollectible) :
    (cache.neighbors k).ipAddress ≠ entry.ipAddress := by
  cases hwritten with
  | deleted => exact absurd rfl hlive
  | renewed hfound hsame hkeep => exact hkeeps call hcall i hfound hsame hkeep k hk hother
  | inserted hfound _ _ => exact findAddress_none hfound k

theorem init_addressesDistinct : AddressesDistinct init :=
  fun _ _ hlive _ _ => absurd rfl hlive

theorem perform_addressesDistinct {op : Operation} {next : NeighborCache}
    (hdistinct : AddressesDistinct cache) (hkeeps : KeepsDistinct cache op)
    (hstep : perform cache op = some next) : AddressesDistinct next := by
  rcases perform_effect hstep with rfl | hall | ⟨call, hcall, i, entry, hwritten, hentry, hrest⟩
  · exact init_addressesDistinct
  · intro j k hj hk heq
    rw [(hall j).1] at hj
    rw [(hall k).1] at hk
    rw [(hall j).2.1, (hall k).2.1] at heq
    exact hdistinct j k hj hk heq
  · -- the written entry differs from every other one, the others did not change
    have hfresh : ∀ k, k ≠ i → (next.neighbors k).status ≠ .garbageCollectible →
        (next.neighbors i).status ≠ .garbageCollectible →
        (next.neighbors k).ipAddress ≠ (next.neighbors i).ipAddress := by
      intro k hk hlive hliveEntry
      rw [(hrest k hk).1] at hlive
      rw [hentry.1] at hliveEntry
      rw [(hrest k hk).2.1, hentry.2.1]
      exact hwritten.address_fresh hkeeps hcall hliveEntry hk hlive
    intro j k hj hk heq
    by_cases hji : j = i
    · subst hji
      by_cases hki : k = j
      · exact hki.symm
      · exact absurd heq.symm (hfresh k hki hk hj)
    · by_cases hki : k = i
      · subst hki
        exact absurd heq (hfresh j hji hj hk)
      · rw [(hrest j hji).1] at hj
        rw [(hrest k hki).1] at hk
        rw [(hrest j hji).2.1, (hrest k hki).2.1] at heq
        exact hdistinct j k hj hk heq

/-! ## Lookups -/

/-- The two mistakes of the comparison in the lookup do not show at this entry. -/
def Visible (entry : Neighbor) : Prop :=
  (entry.status = .registered → entry.linkLayerAddress = 0 ∨ entry.ipAddress = .allRouters) ∧
    (entry.status = .tentative → entry.linkLayerAddress = 0 ∨ entry.ipAddress ≠ .allRouters)

/-- Entries not in use hold no address. -/
def GarbageBlank (cache : NeighborCache) : Prop :=
  ∀ i, (cache.neighbors i).status = .garbageCollectible →
    (cache.neighbors i).ipAddress = .unspecified

theorem renewed_status (neighbor : Neighbor) (request : NeighborUpdate) :
    (renewed neighbor request).status ≠ .garbageCollectible := by
  unfold renewed Neighbor.registeredBy
  split <;> simp

theorem entry_status (request : NeighborUpdate) :
    request.entry.status ≠ .garbageCollectible := by
  unfold NeighborUpdate.entry
  cases request.isTentative <;> simp

theorem Written.garbageBlank {call : NeighborUpdate} {i : Fin lowpanMaxOfNeighbors}
    {entry : Neighbor} (hwritten : cache.Written call i entry)
    (hgarbage : entry.status = .garbageCollectible) : entry.ipAddress = .unspecified := by
  cases hwritten with
  | deleted => rfl
  | renewed => exact absurd hgarbage (renewed_status _ _)
  | inserted => exact absurd hgarbage (entry_status _)

theorem init_garbageBlank : GarbageBlank init := fun _ _ => rfl

theorem perform_garbageBlank {op : Operation} {next : NeighborCache} (hblank : GarbageBlank cache)
    (hstep : perform cache op = some next) : GarbageBlank next := by
  rcases perform_effect hstep with rfl | hall | ⟨call, hcall, i, entry, hwritten, hentry, hrest⟩
  · exact init_garbageBlank
  · intro k hk
    rw [(hall k).1] at hk
    rw [(hall k).2.1]
    exact hblank k hk
  · intro k hk
    by_cases hki : k = i
    · subst hki
      rw [hentry.1] at hk
      rw [hentry.2.1]
      exact hwritten.garbageBlank hk
    · rw [(hrest k hki).1] at hk
      rw [(hrest k hki).2.1]
      exact hblank k hk

theorem lookup_cases (cache : NeighborCache) (ipAddress : IPv6Address) :
    (∃ i, (cache.neighbors i).ipAddress = ipAddress ∧ ipAddress = .allRouters ∧
        cache.getLinkLayerAddressForNeighbor ipAddress = (cache.neighbors i).linkLayerAddress) ∨
      (cache.getLinkLayerAddressForNeighbor ipAddress = 0 ∧
        ∀ i, (cache.neighbors i).ipAddress = ipAddress → ipAddress ≠ .allRouters) := by
  unfold getLinkLayerAddressForNeighbor
  cases hfind : (List.finRange lowpanMaxOfNeighbors).find? fun i =>
      (cache.neighbors i).ipAddress = ipAddress ∧
        (cache.neighbors i).ipAddress = .allRouters with
  | some i =>
      have hi := List.find?_some hfind
      rw [decide_eq_true_eq] at hi
      exact .inl ⟨i, hi.1, hi.1.symm.trans hi.2, rfl⟩
  | none =>
      refine .inr ⟨rfl, fun i hi hall => ?_⟩
      have hnot := List.find?_eq_none.1 hfind i (List.mem_finRange i)
      rw [decide_eq_true_eq] at hnot
      exact hnot ⟨hi, hi.trans hall⟩

/-- Lookups are right in a state just when every entry is visible to them. -/
theorem lookupCorrect_iff (hdistinct : AddressesDistinct cache) (hblank : GarbageBlank cache) :
    LookupCorrect cache ↔ ∀ i, Visible (cache.neighbors i) := by
  have hlive : ∀ i, (cache.neighbors i).ipAddress = .allRouters →
      (cache.neighbors i).status ≠ .garbageCollectible := fun i hi hgarbage =>
    IPv6Address.unspecified_ne_allRouters ((hblank i hgarbage).symm.trans hi)
  constructor
  · intro hcorrect i
    constructor
    · intro hregistered
      have huse : (cache.neighbors i).status ≠ .garbageCollectible := by simp [hregistered]
      rcases hcorrect (cache.neighbors i).ipAddress with ⟨k, hk, hip, hget⟩ | ⟨hnone, -⟩
      · obtain rfl : k = i := hdistinct k i (by simp [hk]) huse hip
        rcases cache.lookup_cases (cache.neighbors k).ipAddress with ⟨-, -, hall, -⟩ | ⟨hzero, -⟩
        · exact .inr hall
        · exact .inl (hget.symm.trans hzero)
      · exact absurd rfl (hnone i hregistered)
    · intro htentative
      have huse : (cache.neighbors i).status ≠ .garbageCollectible := by simp [htentative]
      by_cases hall : (cache.neighbors i).ipAddress = .allRouters
      · left
        rcases hcorrect (cache.neighbors i).ipAddress with ⟨k, hk, hip, -⟩ | ⟨-, hzero⟩
        · obtain rfl : k = i := hdistinct k i (by simp [hk]) huse hip
          simp [hk] at htentative
        · rcases cache.lookup_cases (cache.neighbors i).ipAddress with ⟨k, hip, -, hget⟩ | ⟨-, hno⟩
          · obtain rfl : k = i := hdistinct k i (hlive k (hip.trans hall)) huse hip
            exact hget.symm.trans hzero
          · exact absurd hall (hno i rfl)
      · exact .inr hall
  · intro hvisible ipAddress
    rcases cache.lookup_cases ipAddress with ⟨i, hip, hall, hget⟩ | ⟨hzero, hno⟩
    · cases hstatus : (cache.neighbors i).status with
      | garbageCollectible => exact absurd hstatus (hlive i (hip.trans hall))
      | registered => exact .inl ⟨i, hstatus, hip, hget⟩
      | tentative =>
          refine .inr ⟨fun k hk hkip => ?_, ?_⟩
          · obtain rfl : k = i := hdistinct k i (by simp [hk]) (by simp [hstatus])
              (hkip.trans hip.symm)
            simp [hk] at hstatus
          · rw [hget]
            exact ((hvisible i).2 hstatus).resolve_right fun hne => hne (hip.trans hall)
    · by_cases hexists : ∃ i, (cache.neighbors i).status = .registered ∧
          (cache.neighbors i).ipAddress = ipAddress
      · obtain ⟨i, hregistered, hip⟩ := hexists
        have hll := ((hvisible i).1 hregistered).resolve_right fun hall =>
          hno i hip (hip.symm.trans hall)
        exact .inl ⟨i, hregistered, hip, hzero.trans hll.symm⟩
      · exact .inr ⟨fun i hregistered hip => hexists ⟨i, hregistered, hip⟩, hzero⟩

/-- The entry in use that a call of `update_neighbor` leaves behind. -/
def stored (cache : NeighborCache) (call : NeighborUpdate) : Option Neighbor :=
  if call.lifetime = 0 ∧ call.isTentative = false then none
  else
    match cache.findAddress call.ipAddress with
    | some i =>
        if (cache.neighbors i).linkLayerAddress = call.llAddress then
          some (renewed (cache.neighbors i) call)
        else none
    | none => if cache.selectedPlace = none then none else some call.entry

/-- The entry the operation stores is one the lookup treats right: registered under FF02::2,
tentative under another address, or with link-layer address 0. -/
def KeepsLookup (cache : NeighborCache) (op : Operation) : Prop :=
  ∀ call ∈ op.request cache, ∀ entry ∈ cache.stored call, Visible entry

theorem Written.visible {op : Operation} {call : NeighborUpdate}
    {i : Fin lowpanMaxOfNeighbors} {entry : Neighbor} (hkeeps : KeepsLookup cache op)
    (hcall : call ∈ op.request cache) (hwritten : cache.Written call i entry) :
    Visible entry := by
  have hstored := hkeeps call hcall entry
  cases hwritten with
  | deleted => exact ⟨fun _ => .inl rfl, fun _ => .inl rfl⟩
  | renewed hfound hsame hkeep =>
      apply hstored
      have hnot : ¬ (call.lifetime = 0 ∧ call.isTentative = false) := by
        rcases hkeep with hlifetime | htentative
        · exact fun hboth => hlifetime hboth.1
        · simp [htentative]
      simp [stored, hfound, hsame, hnot]
  | inserted hfound hplace hkeep =>
      apply hstored
      have hnot : ¬ (call.lifetime = 0 ∧ call.isTentative = false) := by
        rcases hkeep with hlifetime | htentative
        · exact fun hboth => hlifetime hboth.1
        · simp [htentative]
      simp [stored, hfound, hplace, hnot]

theorem init_visible (i : Fin lowpanMaxOfNeighbors) : Visible (init.neighbors i) :=
  ⟨fun _ => .inl rfl, fun _ => .inl rfl⟩

theorem Visible.congr {neighbor other : Neighbor} (hsame : SameEntry neighbor other)
    (hvisible : Visible other) : Visible neighbor := by
  unfold Visible
  rw [hsame.1, hsame.2.1, hsame.2.2]
  exact hvisible

theorem perform_visible {op : Operation} {next : NeighborCache}
    (hvisible : ∀ i, Visible (cache.neighbors i)) (hkeeps : KeepsLookup cache op)
    (hstep : perform cache op = some next) (k : Fin lowpanMaxOfNeighbors) :
    Visible (next.neighbors k) := by
  rcases perform_effect hstep with rfl | hall | ⟨call, hcall, i, entry, hwritten, hentry, hrest⟩
  · exact init_visible k
  · exact (hvisible k).congr (hall k)
  · by_cases hki : k = i
    · subst hki
      exact (hwritten.visible hkeeps hcall).congr hentry
    · exact (hvisible k).congr (hrest k hki)

/-! ## Default routers -/

/-- The operation deletes no entry a default router points to, and stores no pointer to an
entry that was in the cache before: for such an entry `update_neighbor` returns no number. -/
def KeepsRouters (cache : NeighborCache) (op : Operation) : Prop :=
  (∀ call ∈ op.request cache, ∀ i, cache.findAddress call.ipAddress = some i →
    (cache.neighbors i).linkLayerAddress = call.llAddress →
    call.lifetime = 0 → call.isTentative = false →
    ∀ r, (cache.routers r).neighborPointer ≠ some i) ∧
  ∀ ipAddress llAddress ownLifetime, op = .updateRouter ipAddress llAddress ownLifetime →
    ownLifetime ≠ 0 → ∀ i, cache.findAddress ipAddress = some i →
    (cache.neighbors i).linkLayerAddress = llAddress →
    (∃ r k, (cache.routers r).neighborPointer = some (k : Fin lowpanMaxOfNeighbors).val ∧
        (cache.neighbors k).ipAddress = ipAddress) ∨
      ∀ r, (cache.routers r).neighborPointer ≠ none

theorem init_routersPointToRouters : RoutersPointToRouters init := by
  intro r pointer hpointer
  simp [init] at hpointer

theorem deref_val (cache : NeighborCache) (i : Fin lowpanMaxOfNeighbors) :
    cache.deref i = some (cache.neighbors i) := by
  simp [deref]

/-- Entries whose state and mark survive keep the router list right. -/
theorem RoutersPointToRouters.of_neighbors {next : NeighborCache}
    (hpoint : RoutersPointToRouters cache) (hrouters : next.routers = cache.routers)
    (hkeep : ∀ r (i : Fin lowpanMaxOfNeighbors), (cache.routers r).neighborPointer = some i.val →
      (cache.neighbors i).status ≠ .garbageCollectible →
      (next.neighbors i).status ≠ .garbageCollectible ∧
        ((cache.neighbors i).isRouter = true → (next.neighbors i).isRouter = true)) :
    RoutersPointToRouters next := by
  intro r pointer hpointer
  rw [hrouters] at hpointer
  obtain ⟨i, rfl, hlive, hmark⟩ := hpoint r pointer hpointer
  obtain ⟨hlive', hmark'⟩ := hkeep r i hpointer hlive
  exact ⟨i, rfl, hlive', hmark' hmark⟩

theorem RoutersPointToRouters.setRouter {r : Fin lowpanMaxOfRouters} {router : Router}
    (hpoint : RoutersPointToRouters cache)
    (hrouter : router.neighborPointer = none ∨
      router.neighborPointer = (cache.routers r).neighborPointer) :
    RoutersPointToRouters (cache.setRouter r router) := by
  intro s pointer hpointer
  rw [setRouter_routers] at hpointer
  by_cases hs : s = r
  · rw [if_pos hs] at hpointer
    rcases hrouter with hnone | hsame
    · simp [hnone] at hpointer
    · exact hpoint r pointer (hsame ▸ hpointer)
  · rw [if_neg hs] at hpointer
    exact hpoint s pointer hpointer

theorem renewed_isRouter (neighbor : Neighbor) (request : NeighborUpdate) :
    (renewed neighbor request).isRouter = neighbor.isRouter := by
  unfold renewed Neighbor.registeredBy
  split <;> rfl

theorem updateNeighbor_routers (cache : NeighborCache) (request : NeighborUpdate) :
    (cache.updateNeighbor request).2.2.routers = cache.routers := by
  rcases cache.updateNeighbor_cases request with ⟨hsame, -⟩ | ⟨i, entry, -, heq⟩
  · rw [hsame]
  · rw [heq]
    rfl

theorem updateNeighbor_routersPointToRouters {request : NeighborUpdate}
    (hpoint : RoutersPointToRouters cache)
    (hkeeps : ∀ i, cache.findAddress request.ipAddress = some i →
      (cache.neighbors i).linkLayerAddress = request.llAddress →
      request.lifetime = 0 → request.isTentative = false →
      ∀ r, (cache.routers r).neighborPointer ≠ some i) :
    RoutersPointToRouters (cache.updateNeighbor request).2.2 := by
  apply hpoint.of_neighbors (cache.updateNeighbor_routers request)
  intro r k hr hlive
  rcases cache.updateNeighbor_cases request with ⟨hsame, -⟩ | ⟨i, entry, hwritten, heq⟩
  · rw [hsame]
    exact ⟨hlive, id⟩
  · rw [heq, setNeighbor_neighbors]
    by_cases hki : k = i
    · subst hki
      rw [if_pos rfl]
      cases hwritten with
      | deleted hfound hsame hlifetime htentative =>
          exact absurd hr (hkeeps k hfound hsame hlifetime htentative r)
      | renewed =>
          rw [renewed_isRouter]
          exact ⟨renewed_status _ _, id⟩
      | inserted _ hplace _ => exact absurd (selectedPlace_some hplace) hlive
    · rw [if_neg hki]
      exact ⟨hlive, id⟩

/-- A free place is chosen only when no router entry holds the address. -/
theorem searchRouters_free {ipAddress : IPv6Address} {place : Fin lowpanMaxOfRouters} :
    ∀ {routers : List (Fin lowpanMaxOfRouters)} {selected : Option (Fin lowpanMaxOfRouters)},
      cache.searchRouters ipAddress routers selected = some (.free place) →
      (∀ s ∈ selected, (cache.routers s).neighborPointer = none) →
      (cache.routers place).neighborPointer = none ∧
        ∀ r ∈ routers, ∀ k : Fin lowpanMaxOfNeighbors,
          (cache.routers r).neighborPointer = some k.val →
          (cache.neighbors k).ipAddress ≠ ipAddress
  | [], none, hsearch, _ => by simp [searchRouters] at hsearch
  | [], some selected, hsearch, hselected => by
      obtain rfl : selected = place := by simpa [searchRouters] using hsearch
      exact ⟨hselected selected rfl, by simp⟩
  | i :: rest, selected, hsearch, hselected => by
      rw [searchRouters] at hsearch
      cases hpointer : (cache.routers i).neighborPointer with
      | none =>
          simp only [hpointer] at hsearch
          have hselected' : ∀ s ∈ selected.or (some i),
              (cache.routers s).neighborPointer = none := by
            intro s hs
            cases selected with
            | none =>
                obtain rfl : i = s := by simpa using hs
                exact hpointer
            | some first => exact hselected s (by simpa using hs)
          obtain ⟨hfree, hrest⟩ := searchRouters_free hsearch hselected'
          refine ⟨hfree, fun r hr k hk => ?_⟩
          rcases List.mem_cons.1 hr with rfl | hmem
          · simp [hpointer] at hk
          · exact hrest r hmem k hk
      | some pointer =>
          simp only [hpointer] at hsearch
          cases hneighbor : cache.deref pointer with
          | none => simp [hneighbor] at hsearch
          | some neighbor =>
              simp only [hneighbor] at hsearch
              split at hsearch
              next => simp at hsearch
              next hother =>
                obtain ⟨hfree, hrest⟩ := searchRouters_free hsearch hselected
                refine ⟨hfree, fun r hr k hk => ?_⟩
                rcases List.mem_cons.1 hr with rfl | hmem
                · obtain rfl : pointer = k.val := by simpa [hpointer] using hk
                  rw [deref_val, Option.some.injEq] at hneighbor
                  rw [hneighbor]
                  exact hother
                · exact hrest r hmem k hk

/-- The call of `update_neighbor` in `update_router` changes no address of an entry in use. -/
theorem routerRequest_ipAddress {ipAddress : IPv6Address} {llAddress : ℕ}
    {k : Fin lowpanMaxOfNeighbors} (hlive : (cache.neighbors k).status ≠ .garbageCollectible) :
    ((cache.updateNeighbor (routerRequest ipAddress llAddress)).2.2.neighbors k).ipAddress =
      (cache.neighbors k).ipAddress := by
  rcases cache.updateNeighbor_cases (routerRequest ipAddress llAddress) with
    ⟨hsame, -⟩ | ⟨i, entry, hwritten, heq⟩
  · rw [hsame]
  · rw [heq, setNeighbor_neighbors]
    by_cases hki : k = i
    · subst hki
      rw [if_pos rfl]
      cases hwritten with
      | deleted _ _ _ htentative => simp [routerRequest] at htentative
      | renewed => simp [renewed, routerRequest]
      | inserted _ hplace _ => exact absurd (selectedPlace_some hplace) hlive
    · rw [if_neg hki]

/-- Entering a router that got a place in the cache of its own. -/
theorem RoutersPointToRouters.enter {place : Fin lowpanMaxOfRouters} {ownLifetime : ℕ}
    {i : Fin lowpanMaxOfNeighbors} (hpoint : RoutersPointToRouters cache)
    (hlive : (cache.neighbors i).status ≠ .garbageCollectible) :
    RoutersPointToRouters ((cache.setRouter place
      { neighborPointer := some i.val, ownRegistrationLifetime := ownLifetime }).markRouter i) := by
  have hmark : ∀ k, ((cache.setRouter place
      { neighborPointer := some i.val, ownRegistrationLifetime := ownLifetime }).markRouter
        i).neighbors k =
      if k = i then { cache.neighbors i with isRouter := true } else cache.neighbors k := by
    intro k
    unfold markRouter
    rw [dif_pos i.isLt, setNeighbor_neighbors]
    rfl
  intro s pointer hpointer
  have hcase : (s = place ∧ pointer = i.val) ∨
      (cache.routers s).neighborPointer = some pointer := by
    unfold markRouter at hpointer
    rw [dif_pos i.isLt, setNeighbor_routers, setRouter_routers] at hpointer
    split at hpointer
    next hs => exact .inl ⟨hs, (Option.some.inj hpointer).symm⟩
    next => exact .inr hpointer
  rcases hcase with ⟨-, rfl⟩ | hold
  · exact ⟨i, rfl, by rw [hmark, if_pos rfl]; exact ⟨hlive, rfl⟩⟩
  · obtain ⟨k, rfl, hlivek, hmarkk⟩ := hpoint s pointer hold
    refine ⟨k, rfl, ?_⟩
    rw [hmark]
    split
    next => exact ⟨hlive, rfl⟩
    next => exact ⟨hlivek, hmarkk⟩

theorem updateRouter_routersPointToRouters {ipAddress : IPv6Address} {llAddress ownLifetime : ℕ}
    {result : UpdateReturnValue} {next : NeighborCache} (hpoint : RoutersPointToRouters cache)
    (hkeeps : KeepsRouters cache (.updateRouter ipAddress llAddress ownLifetime))
    (hstep : cache.updateRouter ipAddress llAddress ownLifetime = some (result, next)) :
    RoutersPointToRouters next := by
  have hcases := cache.updateNeighbor_cases (routerRequest ipAddress llAddress)
  have haddress := @routerRequest_ipAddress cache ipAddress llAddress
  have hsameRouters := cache.updateNeighbor_routers (routerRequest ipAddress llAddress)
  have hupdated : RoutersPointToRouters
      (cache.updateNeighbor (routerRequest ipAddress llAddress)).2.2 :=
    updateNeighbor_routersPointToRouters hpoint fun i hfound hsame _ htentative => by
      simp [routerRequest] at htentative
  unfold updateRouter at hstep
  generalize cache.updateNeighbor (routerRequest ipAddress llAddress) = call
    at hstep hcases haddress hsameRouters hupdated
  obtain ⟨returned, number, updated⟩ := call
  dsimp only at hstep hcases haddress hsameRouters hupdated
  split at hstep
  · cases hstep
    exact hupdated
  next hgo =>
    split at hstep
    · cases hstep
    · cases hstep
      exact hupdated.setRouter (.inr rfl)
    · cases hstep
      exact hupdated
    next place hsearch =>
      cases hstep
      obtain ⟨hfree, hno⟩ := searchRouters_free hsearch (by simp)
      rcases hcases with ⟨-, hreturned⟩ | ⟨i, entry, hwritten, heq⟩
      · exfalso
        rcases hreturned with hduplicate | hfull | ⟨-, htentative⟩
        · exact hgo (.inr (.inl hduplicate))
        · exact hgo (.inl hfull)
        · simp [routerRequest] at htentative
      · obtain ⟨rfl, rfl, rfl⟩ : returned = .success ∧
            number = cache.numberOfNeighbor (routerRequest ipAddress llAddress) i ∧
            updated = cache.setNeighbor i entry := by simpa using heq
        cases hwritten with
        | deleted _ _ _ htentative => simp [routerRequest] at htentative
        | renewed hfound hsame _ =>
            -- the entry was there: the condition says that its router entry is found first
            exfalso
            rcases hkeeps.2 ipAddress llAddress ownLifetime rfl (by simp_all) i hfound hsame with
              ⟨r, k, hr, hip⟩ | hfull
            · obtain ⟨k', hk', hlive, -⟩ := hpoint r k hr
              obtain rfl : k = k' := Fin.ext hk'
              exact hno r (List.mem_finRange r) k hr ((haddress hlive).trans hip)
            · exact hfull place hfree
        | inserted hfound hplace _ =>
            have hnumber : cache.numberOfNeighbor (routerRequest ipAddress llAddress) i = i := by
              simp [numberOfNeighbor, hfound]
            rw [hnumber]
            apply hupdated.enter
            rw [setNeighbor_neighbors, if_pos rfl]
            exact entry_status _

theorem expireRouter_routersPointToRouters {i : Fin lowpanMaxOfRouters} {stray : ℕ}
    {next : NeighborCache} (hpoint : RoutersPointToRouters cache)
    (hstep : cache.expireRouter i stray = some next) : RoutersPointToRouters next := by
  have haged : RoutersPointToRouters (cache.setRouter i { cache.routers i with
      ownRegistrationLifetime := (cache.routers i).ownRegistrationLifetime - 1 }) :=
    hpoint.setRouter (.inr rfl)
  unfold expireRouter at hstep
  split at hstep
  · split at hstep
    · cases hstep
    next neighbor hneighbor =>
      split at hstep
      · simp only [updateRouter_zero, Option.some.injEq] at hstep
        subst hstep
        apply RoutersPointToRouters.setRouter _ (.inl rfl)
        apply updateNeighbor_routersPointToRouters haged
        intro k _ _ _ htentative
        simp [routerRequest] at htentative
      · cases hstep
        exact haged
  · cases hstep
    exact hpoint

theorem expireNeighbor_routersPointToRouters {i : Fin lowpanMaxOfNeighbors}
    (hpoint : RoutersPointToRouters cache) (hkeeps : KeepsRouters cache (.expireNeighbor i)) :
    RoutersPointToRouters (cache.expireNeighbor i) := by
  have hsame := sameEntry_setNeighbor (sameEntry_age (cache.neighbors i))
  have haged : RoutersPointToRouters (cache.setNeighbor i (age (cache.neighbors i))) := by
    refine hpoint.of_neighbors (cache.setNeighbor_routers i _) fun r k _ hlive => ?_
    refine ⟨by rw [(hsame k).1]; exact hlive, fun hmark => ?_⟩
    rw [setNeighbor_neighbors]
    split
    next heq =>
      subst heq
      unfold age
      split <;> exact hmark
    next => exact hmark
  unfold expireNeighbor
  by_cases houtdated : isOutdated (age (cache.neighbors i))
  · rw [if_pos houtdated]
    apply updateNeighbor_routersPointToRouters haged
    intro k hfound hll hlifetime htentative r
    rw [findAddress_congr hsame] at hfound
    rw [(hsame k).2.2] at hll
    exact hkeeps.1 (deletion (cache.neighbors i)) (by simp [Operation.request, houtdated]) k
      hfound hll hlifetime htentative r
  · rw [if_neg houtdated]
    exact haged

theorem perform_routersPointToRouters {op : Operation} {next : NeighborCache}
    (hpoint : RoutersPointToRouters cache) (hkeeps : KeepsRouters cache op)
    (hstep : perform cache op = some next) : RoutersPointToRouters next := by
  cases op with
  | updateNeighbor request =>
      cases hstep
      exact updateNeighbor_routersPointToRouters hpoint (hkeeps.1 request rfl)
  | updateRouter ipAddress llAddress ownLifetime =>
      simp only [perform, Option.map_eq_some_iff] at hstep
      obtain ⟨⟨result, updated⟩, hupdate, rfl⟩ := hstep
      exact updateRouter_routersPointToRouters hpoint hkeeps hupdate
  | expireRouter i stray => exact expireRouter_routersPointToRouters hpoint hstep
  | expireNeighbor i =>
      cases hstep
      exact expireNeighbor_routersPointToRouters hpoint hkeeps
  | outdateStorage =>
      cases hstep
      exact init_routersPointToRouters

/-! ## Runs -/

theorem run_addressesDistinct {operations : List Operation} {last : NeighborCache}
    (hrun : Run (Guarded KeepsDistinct (stepOf perform)) init operations last) :
    AddressesDistinct last := by
  have hstep : ∀ state op next, AddressesDistinct state →
      Guarded KeepsDistinct (stepOf perform) state op next → AddressesDistinct next :=
    fun _ _ _ hdistinct hop => perform_addressesDistinct hdistinct hop.1 hop.2
  exact hrun.invariant hstep init_addressesDistinct

theorem run_routersPointToRouters {operations : List Operation} {last : NeighborCache}
    (hrun : Run (Guarded KeepsRouters (stepOf perform)) init operations last) :
    RoutersPointToRouters last := by
  have hstep : ∀ state op next, RoutersPointToRouters state →
      Guarded KeepsRouters (stepOf perform) state op next → RoutersPointToRouters next :=
    fun _ _ _ hpoint hop => perform_routersPointToRouters hpoint hop.1 hop.2
  exact hrun.invariant hstep init_routersPointToRouters

/-- What lookups depend on. -/
structure LookupInvariant (cache : NeighborCache) : Prop where
  distinct : AddressesDistinct cache
  blank : GarbageBlank cache
  visible : ∀ i, Visible (cache.neighbors i)

theorem run_lookupCorrect {operations : List Operation} {last : NeighborCache}
    (hrun : Run (Guarded (fun cache op => KeepsDistinct cache op ∧ KeepsLookup cache op)
      (stepOf perform)) init operations last) : LookupCorrect last := by
  have hstep : ∀ state op next, LookupInvariant state →
      Guarded (fun cache op => KeepsDistinct cache op ∧ KeepsLookup cache op)
        (stepOf perform) state op next → LookupInvariant next := by
    intro state op next hinv hop
    constructor
    · exact perform_addressesDistinct hinv.distinct hop.1.1 hop.2
    · exact perform_garbageBlank hinv.blank hop.2
    · exact perform_visible hinv.visible hop.1.2 hop.2
  have hlast := hrun.invariant hstep ⟨init_addressesDistinct, init_garbageBlank, init_visible⟩
  exact (lookupCorrect_iff hlast.distinct hlast.blank).2 hlast.visible

/-- Each part of the consistency of the cache holds after every run whose steps keep to the
condition of that part. -/
theorem consistent_of_intact_run (operations : List Operation) (last : NeighborCache) :
    (Run (Guarded KeepsDistinct (stepOf perform)) init operations last →
        AddressesDistinct last) ∧
      (Run (Guarded KeepsRouters (stepOf perform)) init operations last →
        RoutersPointToRouters last) ∧
      (Run (Guarded (fun cache op => KeepsDistinct cache op ∧ KeepsLookup cache op)
        (stepOf perform)) init operations last → LookupCorrect last) :=
  ⟨run_addressesDistinct, run_routersPointToRouters, run_lookupCorrect⟩

/-- The global address 2001::`n`. -/
def globalAddress (n : Fin 256) : IPv6Address :=
  ⟨fun k => if k = 0 then 0x20 else if k = 1 then 0x01 else if k = 15 then n else 0⟩

/-- A node registers the address of all routers. -/
def registerAllRouters : Operation :=
  .updateNeighbor { ipAddress := .allRouters, llAddress := 7, lifetime := 60, isTentative := false }

theorem registerAllRouters_findAddress (call : NeighborUpdate) (hcall : call ∈ registerAllRouters.request init) :
    init.findAddress call.ipAddress = none := by
  cases hcall
  decide

theorem consistent_of_intact_run_register :
    AddressesDistinct (init.updateNeighbor ⟨.allRouters, 7, 60, false⟩).2.2 ∧
      RoutersPointToRouters (init.updateNeighbor ⟨.allRouters, 7, 60, false⟩).2.2 ∧
      LookupCorrect (init.updateNeighbor ⟨.allRouters, 7, 60, false⟩).2.2 := by
  have hdistinct : KeepsDistinct init registerAllRouters := by
    intro call hcall i hfound
    simp [registerAllRouters_findAddress call hcall] at hfound
  have hrouters : KeepsRouters init registerAllRouters := by
    refine ⟨fun call hcall i hfound => ?_, fun _ _ _ heq => by cases heq⟩
    simp [registerAllRouters_findAddress call hcall] at hfound
  have hlookup : KeepsLookup init registerAllRouters := by
    intro call hcall entry hentry
    cases hcall
    obtain rfl : NeighborUpdate.entry ⟨.allRouters, 7, 60, false⟩ = entry := by
      have hstored : init.stored ⟨.allRouters, 7, 60, false⟩ =
          some (NeighborUpdate.entry ⟨.allRouters, 7, 60, false⟩) := by decide
      exact Option.some.inj (hstored.symm.trans hentry)
    exact ⟨fun _ => .inr rfl, fun htentative => by cases htentative⟩
  obtain ⟨haddresses, hpointers, hanswers⟩ := consistent_of_intact_run [registerAllRouters]
    (init.updateNeighbor ⟨.allRouters, 7, 60, false⟩).2.2
  exact ⟨haddresses (.cons ⟨hdistinct, rfl⟩ (.nil _)), hpointers (.cons ⟨hrouters, rfl⟩ (.nil _)),
    hanswers (.cons ⟨⟨hdistinct, hlookup⟩, rfl⟩ (.nil _))⟩

/-- A node registers 2001::1 from its address 7; later a router advertisement comes from its
link-local address, for which the first place of the cache is free by then; and the node
renews its registration. -/
def takeOver : List Operation :=
  [.updateNeighbor ⟨globalAddress 5, 5, 60, false⟩,
    .updateNeighbor ⟨globalAddress 1, 7, 60, false⟩,
    .updateNeighbor ⟨globalAddress 5, 5, 0, false⟩,
    .updateRouter (globalAddress 1).makeItLinkLocal 7 0,
    .updateNeighbor ⟨globalAddress 1, 7, 60, false⟩]

/-- A registered neighbor becomes a default router. -/
def enterNeighbor : List Operation :=
  [.updateNeighbor ⟨globalAddress 1, 7, 60, false⟩, .updateRouter (globalAddress 1) 7 30]

/-- Each property is lost in some run: a tentative entry takes over the address of another
one, a registered neighbor becomes a default router, a registered neighbor is looked up. -/
theorem exists_run_inconsistent :
    (∃ last, Run (stepOf perform) init takeOver last ∧ ¬ AddressesDistinct last) ∧
      (∃ last, Run (stepOf perform) init enterNeighbor last ∧ ¬ RoutersPointToRouters last) ∧
      ∃ last, Run (stepOf perform) init (enterNeighbor.take 1) last ∧ ¬ LookupCorrect last := by
  refine ⟨⟨_, Run.of_foldlM rfl, fun hdistinct => ?_⟩, ⟨_, Run.of_foldlM rfl, fun hpoint => ?_⟩,
    ⟨_, Run.of_foldlM rfl, fun hcorrect => ?_⟩⟩
  · have heq := hdistinct 0 1 (by decide) (by decide) (by decide)
    exact absurd heq (by decide)
  · obtain ⟨i, hpointer, -⟩ := hpoint 0 10 (by decide)
    exact absurd hpointer i.isLt.ne'
  · rcases hcorrect (globalAddress 1) with ⟨i, hregistered, hip, hget⟩ | ⟨hnone, -⟩
    · obtain rfl : i = 0 := by
        revert i
        decide
      exact absurd hget (by decide)
    · exact hnone 0 (by decide) (by decide)

end Wiselib.SixLowpan.NeighborCache
