import Wiselib.Library.Run

/-!
# Neighbor cache and default router list

`NeighborCache_DefaultRouters` keeps the neighbors of an interface in the array
`neighbors_` and the default routers in the array `routers_`, whose entries
point into `neighbors_`.  `updateNeighbor` and `updateRouter` are the two ways
messages change them; the timer function ages the entries of both arrays one
after the other, and one turn of either of its loops is one operation here.

Pointers into `neighbors_` are indices.  An index behind the array can be
stored, since `update_router` computes one; following it, or following NULL,
has no result.
-/

namespace Wiselib.SixLowpan

open Transition

/-! ## Addresses -/

scoped instance bits : NeZero 8 := ⟨by decide⟩

scoped instance bytes : NeZero 16 := ⟨by decide⟩

scoped instance byteValues : NeZero 256 := ⟨by decide⟩

/-- The sixteen bytes of an address; equality does not look at the prefix length. -/
structure IPv6Address where
  addr : Fin 16 → Fin 256
deriving DecidableEq

namespace IPv6Address

/-- The address every new entry holds. -/
def unspecified : IPv6Address := ⟨fun _ => 0⟩

/-- `IPv6Address(2)`: the address of all routers, FF02::2. -/
def allRouters : IPv6Address :=
  ⟨fun k => if k = 0 then 0xFF else if k = 1 then 0x02 else if k = 15 then 0x02 else 0⟩

/-- Replace the prefix by FE80::/64 and delete the global bit. -/
def makeItLinkLocal (ip : IPv6Address) : IPv6Address :=
  ⟨fun k =>
    if k = 0 then 0xFE else if k = 1 then 0x80 else if k < 8 then 0
    else if k = 8 then ip.addr k &&& 0xFD else ip.addr k⟩

theorem unspecified_ne_allRouters : unspecified ≠ allRouters := by
  intro heq
  have hbyte := congrArg (fun ip => ip.addr 0) heq
  revert hbyte
  decide

end IPv6Address

/-! ## The two arrays -/

/-- Number of entries of `neighbors_`. -/
abbrev lowpanMaxOfNeighbors : ℕ := 10

/-- Number of entries of `routers_`. -/
abbrev lowpanMaxOfRouters : ℕ := 5

/-- The states of a neighbor cache entry. -/
inductive NeighborState
  | garbageCollectible
  | registered
  | tentative
deriving DecidableEq

/-- An entry of the neighbor cache. -/
structure Neighbor where
  linkLayerAddress : ℕ
  status : NeighborState
  isRouter : Bool
  lifetime : ℕ
  ipAddress : IPv6Address
deriving DecidableEq

/-- The entry the constructor makes, and the one a deletion leaves. -/
def Neighbor.blank : Neighbor where
  linkLayerAddress := 0
  status := .garbageCollectible
  isRouter := false
  lifetime := 0
  ipAddress := .unspecified

/-- An entry of the default router list. -/
structure Router where
  neighborPointer : Option ℕ
  ownRegistrationLifetime : ℕ

/-- The neighbor cache with its default router list. -/
structure NeighborCache where
  neighbors : Fin lowpanMaxOfNeighbors → Neighbor
  routers : Fin lowpanMaxOfRouters → Router

/-- What the update functions return. -/
inductive UpdateReturnValue
  | success
  | duplicateAddress
  | neighborCacheFull
  | routerListFull
deriving DecidableEq

/-- The arguments of `update_neighbor`. -/
structure NeighborUpdate where
  ipAddress : IPv6Address
  llAddress : ℕ
  lifetime : ℕ
  isTentative : Bool

namespace NeighborCache

variable (cache : NeighborCache)

/-- The cache after construction. -/
def init : NeighborCache where
  neighbors := fun _ => .blank
  routers := fun _ => { neighborPointer := none, ownRegistrationLifetime := 0 }

/-- Write one entry of `neighbors_`. -/
def setNeighbor (i : Fin lowpanMaxOfNeighbors) (neighbor : Neighbor) : NeighborCache :=
  { cache with neighbors := Function.update cache.neighbors i neighbor }

/-- Write one entry of `routers_`. -/
def setRouter (i : Fin lowpanMaxOfRouters) (router : Router) : NeighborCache :=
  { cache with routers := Function.update cache.routers i router }

@[simp] theorem setNeighbor_routers (i : Fin lowpanMaxOfNeighbors) (neighbor : Neighbor) :
    (cache.setNeighbor i neighbor).routers = cache.routers := rfl

theorem setNeighbor_neighbors (i k : Fin lowpanMaxOfNeighbors) (neighbor : Neighbor) :
    (cache.setNeighbor i neighbor).neighbors k =
      if k = i then neighbor else cache.neighbors k := by
  simp [setNeighbor, Function.update_apply]

theorem setRouter_routers (i k : Fin lowpanMaxOfRouters) (router : Router) :
    (cache.setRouter i router).routers k = if k = i then router else cache.routers k := by
  simp [setRouter, Function.update_apply]

/-- Follow a pointer into `neighbors_`. -/
def deref (pointer : ℕ) : Option Neighbor :=
  if hrange : pointer < lowpanMaxOfNeighbors then some (cache.neighbors ⟨pointer, hrange⟩)
  else none

/-! ## update_neighbor -/

/-- The entry the search for `ipAddress` stops at: the first one that holds the
address or its link-local form, whatever its status. -/
def findAddress (ipAddress : IPv6Address) : Option (Fin lowpanMaxOfNeighbors) :=
  (List.finRange lowpanMaxOfNeighbors).find? fun i =>
    (cache.neighbors i).ipAddress = ipAddress ∨
      (cache.neighbors i).ipAddress = ipAddress.makeItLinkLocal

/-- The place a new entry goes to. -/
def selectedPlace : Option (Fin lowpanMaxOfNeighbors) :=
  (List.finRange lowpanMaxOfNeighbors).find? fun i =>
    (cache.neighbors i).status = .garbageCollectible

end NeighborCache

/-- The entry after an update with a lifetime. -/
def Neighbor.registeredBy (neighbor : Neighbor) (request : NeighborUpdate) : Neighbor :=
  { neighbor with
    ipAddress :=
      if neighbor.status = .tentative then request.ipAddress else neighbor.ipAddress
    status := .registered
    lifetime := request.lifetime }

/-- The entry a request without an entry makes. -/
def NeighborUpdate.entry (request : NeighborUpdate) : Neighbor where
  ipAddress := request.ipAddress
  linkLayerAddress := request.llAddress
  isRouter := false
  lifetime := request.lifetime
  status := if request.isTentative then .tentative else .registered

namespace NeighborCache

variable (cache : NeighborCache)

/-- `update_neighbor`: its return value, `number_of_neighbor` and the cache after it. -/
def updateNeighbor (request : NeighborUpdate) : UpdateReturnValue × ℕ × NeighborCache :=
  match cache.findAddress request.ipAddress with
  | some i =>
      if (cache.neighbors i).linkLayerAddress = request.llAddress then
        if request.lifetime = 0 then
          if !request.isTentative then
            (.success, lowpanMaxOfNeighbors, cache.setNeighbor i .blank)
          else
            (.success, lowpanMaxOfNeighbors,
              cache.setNeighbor i { cache.neighbors i with status := .tentative })
        else
          (.success, i, cache.setNeighbor i ((cache.neighbors i).registeredBy request))
      else
        (.duplicateAddress, lowpanMaxOfNeighbors, cache)
  | none =>
      match cache.selectedPlace with
      | none => (.neighborCacheFull, lowpanMaxOfNeighbors, cache)
      | some place =>
          -- a new registration with lifetime 0 is dropped
          if request.lifetime = 0 ∧ !request.isTentative then
            (.success, lowpanMaxOfNeighbors, cache)
          else
            (.success, place, cache.setNeighbor place request.entry)

/-- `get_link_layer_address_for_neighbor`.  The second comparison is the source's: it
compares the address of the entry, not its status, with `REGISTERED`, and the enumerator
is converted to `IPv6Address(2)`. -/
def getLinkLayerAddressForNeighbor (ipAddress : IPv6Address) : ℕ :=
  match (List.finRange lowpanMaxOfNeighbors).find? fun i =>
      (cache.neighbors i).ipAddress = ipAddress ∧
        (cache.neighbors i).ipAddress = .allRouters with
  | some i => (cache.neighbors i).linkLayerAddress
  | none => 0

/-! ## update_router -/

/-- How the loop over `routers_` ends. -/
inductive RouterPlace
  | found (i : Fin lowpanMaxOfRouters)
  | free (i : Fin lowpanMaxOfRouters)
  | full

/-- The loop over `routers_`; `selectedPlace` is the first free entry so far. -/
def searchRouters (ipAddress : IPv6Address) :
    List (Fin lowpanMaxOfRouters) → Option (Fin lowpanMaxOfRouters) → Option RouterPlace
  | [], none => some .full
  | [], some place => some (.free place)
  | i :: rest, selectedPlace =>
      match (cache.routers i).neighborPointer with
      | none => searchRouters ipAddress rest (selectedPlace.or (some i))
      | some pointer =>
          match cache.deref pointer with
          | none => none
          | some neighbor =>
              if neighbor.ipAddress = ipAddress then some (.found i)
              else searchRouters ipAddress rest selectedPlace

/-- `neighbors_[number].is_router = true`; behind the array no entry changes. -/
def markRouter (number : ℕ) : NeighborCache :=
  if hrange : number < lowpanMaxOfNeighbors then
    cache.setNeighbor ⟨number, hrange⟩ { cache.neighbors ⟨number, hrange⟩ with isRouter := true }
  else cache

/-- The arguments with which `update_router` calls `update_neighbor`. -/
def routerRequest (ipAddress : IPv6Address) (llAddress : ℕ) : NeighborUpdate where
  ipAddress := ipAddress
  llAddress := llAddress
  lifetime := 0
  isTentative := true

/-- `update_router`: its return value and the cache after it. -/
def updateRouter (ipAddress : IPv6Address) (llAddress ownLifetime : ℕ) :
    Option (UpdateReturnValue × NeighborCache) :=
  match cache.updateNeighbor (routerRequest ipAddress llAddress) with
  | (result, number, updated) =>
      if result = .neighborCacheFull ∨ result = .duplicateAddress ∨ ownLifetime = 0 then
        some (result, updated)
      else
        match updated.searchRouters ipAddress (List.finRange lowpanMaxOfRouters) none with
        | none => none
        | some (.found i) =>
            some (.success, updated.setRouter i
              { updated.routers i with ownRegistrationLifetime := ownLifetime })
        | some .full => some (.routerListFull, updated)
        | some (.free place) =>
            some (.success, (updated.setRouter place
              { neighborPointer := some number, ownRegistrationLifetime := ownLifetime }).markRouter
                number)

/-! ## The timer function -/

/-- The router entry is given up now: its own lifetime runs out with this turn, or its
neighbor has none left. -/
def givesUp (router : Router) (neighbor : Neighbor) : Prop :=
  router.ownRegistrationLifetime - 1 = 0 ∨ neighbor.lifetime = 0

instance (router : Router) (neighbor : Neighbor) : Decidable (givesUp router neighbor) :=
  inferInstanceAs (Decidable (_ ∨ _))

/-- One turn of the loop over the default routers.  The link-layer address is passed as a
pointer to it, so the value used is whatever is stored at that address: `stray`. -/
def expireRouter (i : Fin lowpanMaxOfRouters) (stray : ℕ) : Option NeighborCache :=
  if 0 < (cache.routers i).ownRegistrationLifetime then
    let aged := cache.setRouter i { cache.routers i with
      ownRegistrationLifetime := (cache.routers i).ownRegistrationLifetime - 1 }
    match (cache.routers i).neighborPointer.bind cache.deref with
    | none => none
    | some neighbor =>
        if givesUp (cache.routers i) neighbor then
          match aged.updateRouter neighbor.ipAddress stray 0 with
          | none => none
          | some (_, updated) =>
              some (updated.setRouter i { updated.routers i with neighborPointer := none })
        else some aged
  else some cache

/-- The entry after one minute. -/
def age (neighbor : Neighbor) : Neighbor :=
  if 0 < neighbor.lifetime ∧ neighbor.status = .registered then
    { neighbor with lifetime := neighbor.lifetime - 1 }
  else neighbor

/-- The aged entry is deleted: its lifetime is over, or it was never registered. -/
def isOutdated (neighbor : Neighbor) : Prop :=
  (neighbor.lifetime = 0 ∧ neighbor.status = .registered) ∨ neighbor.status = .tentative

instance (neighbor : Neighbor) : Decidable (isOutdated neighbor) :=
  inferInstanceAs (Decidable (_ ∨ _))

/-- The arguments with which the timer function deletes an entry. -/
def deletion (neighbor : Neighbor) : NeighborUpdate where
  ipAddress := neighbor.ipAddress
  llAddress := neighbor.linkLayerAddress
  lifetime := 0
  isTentative := false

/-- One turn of the loop over the neighbor cache. -/
def expireNeighbor (i : Fin lowpanMaxOfNeighbors) : NeighborCache :=
  let aged := cache.setNeighbor i (age (cache.neighbors i))
  if isOutdated (age (cache.neighbors i)) then
    (aged.updateNeighbor (deletion (cache.neighbors i))).2.2
  else aged

/-- What can happen to the cache. -/
inductive Operation
  | updateNeighbor (request : NeighborUpdate)
  | updateRouter (ipAddress : IPv6Address) (llAddress ownLifetime : ℕ)
  | expireRouter (i : Fin lowpanMaxOfRouters) (stray : ℕ)
  | expireNeighbor (i : Fin lowpanMaxOfNeighbors)
  | outdateStorage

/-- The cache after an operation; `none` where the code follows a pointer to no entry. -/
def perform (cache : NeighborCache) : Operation → Option NeighborCache
  | .updateNeighbor request => some (cache.updateNeighbor request).2.2
  | .updateRouter ipAddress llAddress ownLifetime =>
      (cache.updateRouter ipAddress llAddress ownLifetime).map Prod.snd
  | .expireRouter i stray => cache.expireRouter i stray
  | .expireNeighbor i => some (cache.expireNeighbor i)
  | .outdateStorage => some init

/-- `ND_timeout_manager_function` while the storage is not outdated: both loops. -/
def ndTimeoutManagerFunction (stray : Fin lowpanMaxOfRouters → ℕ) : List Operation :=
  (List.finRange lowpanMaxOfRouters).map (fun i => .expireRouter i (stray i)) ++
    (List.finRange lowpanMaxOfNeighbors).map .expireNeighbor


/-! ## What one call of update_neighbor writes -/

/-- The entry after an update that does not delete it. -/
def renewed (neighbor : Neighbor) (request : NeighborUpdate) : Neighbor :=
  if request.lifetime = 0 then { neighbor with status := .tentative }
  else neighbor.registeredBy request

/-- `request` makes `update_neighbor` write `entry` at place `i`. -/
inductive Written (request : NeighborUpdate) : Fin lowpanMaxOfNeighbors → Neighbor → Prop
  | deleted (i : Fin lowpanMaxOfNeighbors)
      (hfound : cache.findAddress request.ipAddress = some i)
      (hsame : (cache.neighbors i).linkLayerAddress = request.llAddress)
      (hlifetime : request.lifetime = 0) (htentative : request.isTentative = false) :
      Written request i .blank
  | renewed (i : Fin lowpanMaxOfNeighbors)
      (hfound : cache.findAddress request.ipAddress = some i)
      (hsame : (cache.neighbors i).linkLayerAddress = request.llAddress)
      (hkeep : request.lifetime ≠ 0 ∨ request.isTentative = true) :
      Written request i (renewed (cache.neighbors i) request)
  | inserted (i : Fin lowpanMaxOfNeighbors)
      (hfound : cache.findAddress request.ipAddress = none)
      (hplace : cache.selectedPlace = some i)
      (hkeep : request.lifetime ≠ 0 ∨ request.isTentative = true) :
      Written request i request.entry

/-- The number `update_neighbor` returns after writing at place `i`: an existing entry
without a new lifetime leaves it out of range. -/
def numberOfNeighbor (request : NeighborUpdate) (i : Fin lowpanMaxOfNeighbors) : ℕ :=
  if cache.findAddress request.ipAddress = none ∨ request.lifetime ≠ 0 then i
  else lowpanMaxOfNeighbors

/-- A call of `update_neighbor` leaves the cache alone or writes one entry. -/
theorem updateNeighbor_cases (request : NeighborUpdate) :
    ((cache.updateNeighbor request).2.2 = cache ∧
        ((cache.updateNeighbor request).1 = .duplicateAddress ∨
          (cache.updateNeighbor request).1 = .neighborCacheFull ∨
          request.lifetime = 0 ∧ request.isTentative = false)) ∨
      ∃ i entry, cache.Written request i entry ∧
        cache.updateNeighbor request =
          (.success, cache.numberOfNeighbor request i, cache.setNeighbor i entry) := by
  unfold updateNeighbor
  cases hfound : cache.findAddress request.ipAddress with
  | some i =>
      by_cases hsame : (cache.neighbors i).linkLayerAddress = request.llAddress
      · right
        by_cases hlifetime : request.lifetime = 0
        · cases htentative : request.isTentative with
          | false =>
              refine ⟨i, .blank, .deleted i hfound hsame hlifetime htentative, ?_⟩
              simp [hsame, hlifetime, numberOfNeighbor, hfound]
          | true =>
              refine ⟨i, _, .renewed i hfound hsame (.inr htentative), ?_⟩
              simp [hsame, hlifetime, numberOfNeighbor, hfound, renewed]
        · refine ⟨i, _, .renewed i hfound hsame (.inl hlifetime), ?_⟩
          simp [hsame, hlifetime, numberOfNeighbor, renewed]
      · left
        simp [hsame]
  | none =>
      cases hplace : cache.selectedPlace with
      | none => left; simp
      | some place =>
          by_cases hdropped : request.lifetime = 0 ∧ !request.isTentative
          · left
            have htentative : request.isTentative = false := by simpa using hdropped.2
            simp [hdropped.1, htentative]
          · right
            refine ⟨place, _, .inserted place hfound hplace (by
              cases htentative : request.isTentative <;> simp_all), ?_⟩
            show (if request.lifetime = 0 ∧ !request.isTentative then _ else _) = _
            rw [if_neg hdropped]
            simp [numberOfNeighbor, hfound]

variable {cache}

theorem findAddress_none {ipAddress : IPv6Address} (hfound : cache.findAddress ipAddress = none)
    (k : Fin lowpanMaxOfNeighbors) : (cache.neighbors k).ipAddress ≠ ipAddress := by
  have hk := List.find?_eq_none.1 hfound k (List.mem_finRange k)
  exact fun heq => hk (by simp [heq])

theorem selectedPlace_some {i : Fin lowpanMaxOfNeighbors} (hplace : cache.selectedPlace = some i) :
    (cache.neighbors i).status = .garbageCollectible := by
  simpa using List.find?_some hplace


/-! ## What one operation writes -/

variable (cache) in
/-- The call of `update_neighbor` an operation makes. -/
def Operation.request : Operation → Option NeighborUpdate
  | .updateNeighbor request => some request
  | .updateRouter ipAddress llAddress _ => some (routerRequest ipAddress llAddress)
  | .expireRouter i stray =>
      match (cache.routers i).neighborPointer.bind cache.deref with
      | none => none
      | some neighbor =>
          if 0 < (cache.routers i).ownRegistrationLifetime ∧ givesUp (cache.routers i) neighbor
          then some (routerRequest neighbor.ipAddress stray)
          else none
  | .expireNeighbor i =>
      if isOutdated (age (cache.neighbors i)) then some (deletion (cache.neighbors i)) else none
  | .outdateStorage => none

/-- The entries agree on everything the address searches look at. -/
def SameEntry (neighbor other : Neighbor) : Prop :=
  neighbor.status = other.status ∧ neighbor.ipAddress = other.ipAddress ∧
    neighbor.linkLayerAddress = other.linkLayerAddress

theorem SameEntry.refl (neighbor : Neighbor) : SameEntry neighbor neighbor :=
  ⟨Eq.refl _, Eq.refl _, Eq.refl _⟩

theorem sameEntry_age (neighbor : Neighbor) : SameEntry (age neighbor) neighbor := by
  unfold age
  split <;> exact .refl _

theorem sameEntry_setNeighbor {i : Fin lowpanMaxOfNeighbors} {neighbor : Neighbor}
    (hsame : SameEntry neighbor (cache.neighbors i)) (k : Fin lowpanMaxOfNeighbors) :
    SameEntry ((cache.setNeighbor i neighbor).neighbors k) (cache.neighbors k) := by
  rw [setNeighbor_neighbors]
  split
  next heq => rw [heq]; exact hsame
  next => exact .refl _

theorem sameEntry_markRouter (number : ℕ) (k : Fin lowpanMaxOfNeighbors) :
    SameEntry ((cache.markRouter number).neighbors k) (cache.neighbors k) := by
  unfold markRouter
  split
  next =>
      refine sameEntry_setNeighbor ?_ k
      exact ⟨rfl, rfl, rfl⟩
  next => exact .refl _

/-- What an operation does to the entries: nothing, or one call of `update_neighbor` writes
one of them. -/
def Effect (cache : NeighborCache) (request : Option NeighborUpdate) (next : NeighborCache) :
    Prop :=
  (∀ k, SameEntry (next.neighbors k) (cache.neighbors k)) ∨
    ∃ call ∈ request, ∃ i entry, cache.Written call i entry ∧
      SameEntry (next.neighbors i) entry ∧
      ∀ k, k ≠ i → SameEntry (next.neighbors k) (cache.neighbors k)

theorem effect_updateNeighbor (cache : NeighborCache) (request : NeighborUpdate) :
    Effect cache (some request) (cache.updateNeighbor request).2.2 := by
  rcases cache.updateNeighbor_cases request with ⟨hsame, -⟩ | ⟨i, entry, hwritten, heq⟩
  · rw [hsame]
    exact .inl fun k => .refl _
  · rw [heq]
    refine .inr ⟨request, rfl, i, entry, hwritten, ?_, fun k hk => ?_⟩
    · rw [setNeighbor_neighbors, if_pos rfl]
      exact .refl _
    · rw [setNeighbor_neighbors, if_neg hk]
      exact .refl _

theorem Effect.trans {request : Option NeighborUpdate} {middle next : NeighborCache}
    (heffect : Effect cache request middle)
    (hsame : ∀ k, SameEntry (next.neighbors k) (middle.neighbors k)) :
    Effect cache request next := by
  have htrans : ∀ {k other}, SameEntry (middle.neighbors k) other →
      SameEntry (next.neighbors k) other := fun {k other} hmiddle =>
    ⟨(hsame k).1.trans hmiddle.1, (hsame k).2.1.trans hmiddle.2.1,
      (hsame k).2.2.trans hmiddle.2.2⟩
  rcases heffect with hall | ⟨call, hcall, i, entry, hwritten, hentry, hrest⟩
  · exact .inl fun k => htrans (hall k)
  · exact .inr ⟨call, hcall, i, entry, hwritten, htrans hentry, fun k hk => htrans (hrest k hk)⟩


/-- `update_router` writes no entry beyond what its call of `update_neighbor` writes. -/
theorem updateRouter_neighbors {ipAddress : IPv6Address} {llAddress ownLifetime : ℕ}
    {result : UpdateReturnValue} {next : NeighborCache}
    (hstep : cache.updateRouter ipAddress llAddress ownLifetime = some (result, next))
    (k : Fin lowpanMaxOfNeighbors) :
    SameEntry (next.neighbors k)
      ((cache.updateNeighbor (routerRequest ipAddress llAddress)).2.2.neighbors k) := by
  unfold updateRouter at hstep
  generalize cache.updateNeighbor (routerRequest ipAddress llAddress) = call at hstep ⊢
  obtain ⟨returned, number, updated⟩ := call
  dsimp only at hstep ⊢
  split at hstep
  · cases hstep
    exact .refl _
  · split at hstep
    · cases hstep
    · cases hstep
      exact .refl _
    · cases hstep
      exact .refl _
    · cases hstep
      exact sameEntry_markRouter number k

theorem effect_updateRouter {ipAddress : IPv6Address} {llAddress ownLifetime : ℕ}
    {result : UpdateReturnValue} {next : NeighborCache}
    (hstep : cache.updateRouter ipAddress llAddress ownLifetime = some (result, next)) :
    Effect cache (some (routerRequest ipAddress llAddress)) next :=
  (effect_updateNeighbor cache _).trans (updateRouter_neighbors hstep)

theorem updateRouter_zero (ipAddress : IPv6Address) (llAddress : ℕ) :
    cache.updateRouter ipAddress llAddress 0 =
      some ((cache.updateNeighbor (routerRequest ipAddress llAddress)).1,
        (cache.updateNeighbor (routerRequest ipAddress llAddress)).2.2) := by
  simp [updateRouter]

theorem findAddress_congr {other : NeighborCache}
    (hsame : ∀ k, SameEntry (other.neighbors k) (cache.neighbors k)) (ipAddress : IPv6Address) :
    other.findAddress ipAddress = cache.findAddress ipAddress := by
  simp only [findAddress, (hsame _).2.1]

/-- Aging an entry before the call of `update_neighbor` does not change what a deletion
writes. -/
theorem Written.of_aged {i place : Fin lowpanMaxOfNeighbors} {neighbor entry : Neighbor}
    (hwritten : (cache.setNeighbor i (age (cache.neighbors i))).Written (deletion neighbor)
      place entry) : cache.Written (deletion neighbor) place entry := by
  have hsame := sameEntry_setNeighbor (sameEntry_age (cache.neighbors i))
  cases hwritten with
  | deleted hfound hll hlifetime htentative =>
      rw [findAddress_congr hsame] at hfound
      rw [(hsame place).2.2] at hll
      exact .deleted place hfound hll hlifetime htentative
  | renewed _ _ hkeep => simp [deletion] at hkeep
  | inserted _ _ hkeep => simp [deletion] at hkeep

theorem effect_expireNeighbor (i : Fin lowpanMaxOfNeighbors) :
    Effect cache (Operation.request cache (.expireNeighbor i)) (cache.expireNeighbor i) := by
  have hsame := sameEntry_setNeighbor (sameEntry_age (cache.neighbors i))
  unfold expireNeighbor Operation.request
  by_cases houtdated : isOutdated (age (cache.neighbors i))
  · simp only [if_pos houtdated]
    rcases effect_updateNeighbor (cache.setNeighbor i (age (cache.neighbors i)))
      (deletion (cache.neighbors i)) with hall | ⟨call, hcall, place, entry, hwritten, hentry, hrest⟩
    · exact .inl fun k => ⟨(hall k).1.trans (hsame k).1, (hall k).2.1.trans (hsame k).2.1,
        (hall k).2.2.trans (hsame k).2.2⟩
    · cases hcall
      exact .inr ⟨_, rfl, place, entry, hwritten.of_aged, hentry, fun k hk =>
        ⟨(hrest k hk).1.trans (hsame k).1, (hrest k hk).2.1.trans (hsame k).2.1,
          (hrest k hk).2.2.trans (hsame k).2.2⟩⟩
  · simp only [if_neg houtdated]
    exact .inl hsame


theorem Effect.of_setRouter {i : Fin lowpanMaxOfRouters} {router : Router}
    {request : Option NeighborUpdate} {next : NeighborCache}
    (heffect : Effect (cache.setRouter i router) request next) : Effect cache request next := by
  rcases heffect with hall | ⟨call, hcall, place, entry, hwritten, hentry, hrest⟩
  · exact .inl hall
  · refine .inr ⟨call, hcall, place, entry, ?_, hentry, hrest⟩
    cases hwritten with
    | deleted hfound hsame hlifetime htentative =>
        exact .deleted place hfound hsame hlifetime htentative
    | renewed hfound hsame hkeep => exact .renewed place hfound hsame hkeep
    | inserted hfound hplace hkeep => exact .inserted place hfound hplace hkeep

theorem effect_expireRouter {i : Fin lowpanMaxOfRouters} {stray : ℕ} {next : NeighborCache}
    (hstep : cache.expireRouter i stray = some next) :
    Effect cache (Operation.request cache (.expireRouter i stray)) next := by
  unfold expireRouter at hstep
  unfold Operation.request
  by_cases hlifetime : 0 < (cache.routers i).ownRegistrationLifetime
  · simp only [if_pos hlifetime] at hstep
    cases hneighbor : (cache.routers i).neighborPointer.bind cache.deref with
    | none => simp [hneighbor] at hstep
    | some neighbor =>
        by_cases hgivesUp : givesUp (cache.routers i) neighbor
        · simp only [hneighbor, if_pos hgivesUp, updateRouter_zero, Option.some.injEq] at hstep
          subst hstep
          simp only [hneighbor, if_pos (And.intro hlifetime hgivesUp)]
          exact (effect_updateNeighbor (cache.setRouter i _) (routerRequest _ stray)).of_setRouter
        · simp only [hneighbor, if_neg hgivesUp, Option.some.injEq] at hstep
          subst hstep
          exact .inl fun k => .refl _
  · simp only [if_neg hlifetime, Option.some.injEq] at hstep
    subst hstep
    exact .inl fun k => .refl _

theorem perform_effect {op : Operation} {next : NeighborCache}
    (hstep : perform cache op = some next) :
    next = init ∨ Effect cache (op.request cache) next := by
  cases op with
  | updateNeighbor request =>
      cases hstep
      exact .inr (effect_updateNeighbor cache request)
  | updateRouter ipAddress llAddress ownLifetime =>
      simp only [perform, Option.map_eq_some_iff] at hstep
      obtain ⟨⟨result, updated⟩, hupdate, rfl⟩ := hstep
      exact .inr (effect_updateRouter hupdate)
  | expireRouter i stray => exact .inr (effect_expireRouter hstep)
  | expireNeighbor i =>
      cases hstep
      exact .inr (effect_expireNeighbor i)
  | outdateStorage =>
      cases hstep
      exact .inl rfl

end NeighborCache
end Wiselib.SixLowpan
