import Scroom.Pyramid
import Scroom.Transitions

/-! The reduction of finished tiles into the tiles of the layer above, and the count of the
finished tiles of all layers. A job of a coordinator is cut where other jobs can come in
between, and the observers of a tile are notified one by one, in any order. -/
namespace Scroom
namespace Cascade
open Transitions TiledBitmap

/-- What the operations of a layer do to the data of a tile. Reductions into different blocks
of a target can change places. -/
structure Reductions (Lo α : Type) where
  initialData : CompressedTile → α
  reduce : Lo → α → α → ℕ × ℕ → α
  comm : ∀ lo target source source' p p', p ≠ p' →
    reduce lo (reduce lo target source p) source' p' =
      reduce lo (reduce lo target source' p') source p

/-- The calls of `tileFinished` that are due, and the jobs of `reduceSourceTile` by their next
step. A coordinator is known by its place in the list of the bitmap. -/
inductive Task
  | notifyBitmap (tile : CompressedTile)
  | notifyCoordinator (n : ℕ) (tile : CompressedTile)
  | initialize_ (n : ℕ) (tile : CompressedTile)
  | getTile (n : ℕ) (tile : CompressedTile)
  | reduce (n : ℕ) (tile : CompressedTile)
  | finish (n : ℕ) (tile : CompressedTile)
  deriving DecidableEq

/-- The data of the tiles that have been initialised, the members of the coordinators and of
the bitmap that change, the number of times `setFinished` was sent, the tasks, and a record of
the tiles that were reported finished and of the reductions that were done. -/
structure Config (α : Type) where
  data : CompressedTile → Option α
  targetTileData : ℕ → Bool := fun _ => false
  unfinishedSourceTiles : ℕ → ℤ
  tileFinishedCount : ℤ := 0
  setFinished : ℕ := 0
  tasks : List Task := []
  reported : List CompressedTile := []
  reduced : List (ℕ × CompressedTile) := []

variable {Lo α : Type}

/-- The tiles of all layers. -/
def tiles (tb : TiledBitmap Lo) : List CompressedTile := tb.layers.flatMap fun l => l.tiles.flatten

def baseTiles (tb : TiledBitmap Lo) : List CompressedTile :=
  tb.layers[0]?.elim [] fun l => l.tiles.flatten

/-- The coordinators that have registered with a tile. -/
def observers (tb : TiledBitmap Lo) (tile : CompressedTile) : List ℕ :=
  (List.range tb.coordinators.length).filter fun n =>
    tb.coordinators[n]?.any fun lc => tile ∈ lc.registrations

/-- The bitmap after construction. A base tile has its data before it is reported. -/
def initial (tb : TiledBitmap Lo) (base : CompressedTile → α) : Config α where
  data := fun tile => if tile ∈ baseTiles tb then some (base tile) else none
  unfinishedSourceTiles := fun n => tb.coordinators[n]?.elim 0 LayerCoordinator.unfinishedSourceTiles

def reportFinished (tb : TiledBitmap Lo) (c : Config α) (tile : CompressedTile) : Config α :=
  { c with
    reported := c.reported ++ [tile]
    tasks := c.tasks ++
      .notifyBitmap tile :: (observers tb tile).map fun n => .notifyCoordinator n tile }

/-- One step of a task that has been taken out of the list. It fails when there are too many
finished tiles, also for an `int`, and when it uses data that is not there. -/
def perform (R : Reductions Lo α) (tb : TiledBitmap Lo) (c : Config α) : Task → Option (Config α)
  | .notifyBitmap _ => do
    let tileFinishedCount ← MachineInt.checked (c.tileFinishedCount+1)
    if tb.tileCount < tileFinishedCount then none
    else return { c with
      tileFinishedCount := tileFinishedCount
      setFinished := if tileFinishedCount = tb.tileCount then c.setFinished+1 else c.setFinished }
  | .notifyCoordinator n tile => some { c with tasks := c.tasks ++ [.initialize_ n tile] }
  | .initialize_ n tile => do
    let lc ← tb.coordinators[n]?
    let data := (c.data lc.targetTile).getD (R.initialData lc.targetTile)
    return { c with
      data := Function.update c.data lc.targetTile (some data)
      tasks := c.tasks ++ [.getTile n tile] }
  | .getTile n tile => some { c with
      targetTileData := Function.update c.targetTileData n true
      tasks := c.tasks ++ [.reduce n tile] }
  | .reduce n tile => do
    let lc ← tb.coordinators[n]?
    let target ← if c.targetTileData n then c.data lc.targetTile else none
    let source ← c.data tile
    let location := (lc.sourceTiles.lookup tile).getD (0,0)
    return { c with
      data := Function.update c.data lc.targetTile (some (R.reduce lc.lo target source location))
      reduced := c.reduced ++ [(n,tile)]
      tasks := c.tasks ++ [.finish n tile] }
  | .finish n _ => do
    let lc ← tb.coordinators[n]?
    let unfinishedSourceTiles := c.unfinishedSourceTiles n-1
    let c := { c with
      unfinishedSourceTiles := Function.update c.unfinishedSourceTiles n unfinishedSourceTiles }
    if unfinishedSourceTiles = 0 then
      let c := reportFinished tb c lc.targetTile
      return { c with targetTileData := Function.update c.targetTileData n false }
    else return c

inductive Action
  | reportFinished (tile : CompressedTile)
  | perform (task : Task)

/-- Each base tile is reported once, in any order. -/
def step (R : Reductions Lo α) (tb : TiledBitmap Lo) (c : Config α) : Action → Option (Config α)
  | .reportFinished tile =>
    if tile ∈ baseTiles tb ∧ tile ∉ c.reported then some (reportFinished tb c tile) else none
  | .perform task =>
    if task ∈ c.tasks then perform R tb { c with tasks := c.tasks.erase task } task else none

/-! ### What the wiring gives -/

/-- The facts about a wired stack that the cascade rests on. -/
structure Stack (tb : TiledBitmap Lo) : Prop where
  nodup : (tiles tb).Nodup
  tileCount : tb.tileCount = (tiles tb).length
  base : ∀ t, t ∈ baseTiles tb ↔ t ∈ tiles tb ∧ t.depth = 0
  depth : ∀ t ∈ tiles tb, 0 ≤ t.depth
  targets : ∀ (n m : ℕ) (lc lc' : LayerCoordinator Lo), tb.coordinators[n]? = some lc →
    tb.coordinators[m]? = some lc' → lc.targetTile = lc'.targetTile → n = m
  target : ∀ lc ∈ tb.coordinators, lc.targetTile ∈ tiles tb
  source : ∀ lc ∈ tb.coordinators, ∀ t ∈ lc.registrations,
    t ∈ tiles tb ∧ lc.targetTile.depth = t.depth+1
  nonempty : ∀ lc ∈ tb.coordinators, lc.registrations ≠ []
  registrations : ∀ lc ∈ tb.coordinators, lc.registrations.Nodup
  unfinished : ∀ lc ∈ tb.coordinators, lc.unfinishedSourceTiles = lc.registrations.length
  offsets : ∀ lc ∈ tb.coordinators, ∀ t ∈ lc.registrations, ∀ t' ∈ lc.registrations,
    (lc.sourceTiles.lookup t).getD (0,0) = (lc.sourceTiles.lookup t').getD (0,0) → t = t'
  complete : ∀ t ∈ tiles tb, t.depth ≠ 0 → ∃ lc ∈ tb.coordinators, lc.targetTile = t

theorem mem_tiles {tb : TiledBitmap Lo} {t : CompressedTile} :
    t ∈ tiles tb ↔ ∃ (k : ℕ) (l : Layer), tb.layers[k]? = some l ∧ t ∈ l.tiles.flatten := by
  rw [tiles,List.mem_flatMap]
  constructor
  · rintro ⟨l,hl,ht⟩
    obtain ⟨k,hk⟩ := List.mem_iff_getElem?.mp hl
    exact ⟨k,l,hk,ht⟩
  · rintro ⟨k,l,hk,ht⟩
    exact ⟨l,List.mem_of_getElem? hk,ht⟩

theorem nodup_layer (l : Layer) : l.tiles.flatten.Nodup := by
  rw [Layer.tiles,← List.flatMap_def]
  refine List.nodup_flatMap.mpr ⟨fun j _ => ?_,?_⟩
  · exact List.nodup_range.map fun i i' h => (Layer.tileAt_inj.mp h).1
  · refine List.nodup_range.imp fun {j j'} hne t ht ht' => hne ?_
    obtain ⟨i,-,rfl⟩ := List.mem_map.mp ht
    obtain ⟨i',-,he⟩ := List.mem_map.mp ht'
    exact (Layer.tileAt_inj.mp he).2.symm

section Wired

variable {getBpp : Lo → ℤ} {tb : TiledBitmap Lo}

theorem depth_of_wired (hw : Wired getBpp tb) {k : ℕ} {l : Layer} {t : CompressedTile}
    (hl : tb.layers[k]? = some l) (ht : t ∈ l.tiles.flatten) : t.depth = k := by
  obtain ⟨i,-,j,-,rfl⟩ := Layer.mem_tiles_flatten.mp ht
  exact hw.depth k l hl

theorem collected_of_wired (hw : Wired getBpp tb) {lc : LayerCoordinator Lo} (hlc : lc ∈ tb.coordinators) :
    ∃ (k : ℕ) (l l' : Layer) (lo : Lo) (I J : ℕ),
      tb.layers[k]? = some l ∧ tb.layers[k+1]? = some l' ∧ I < l'.horTileCount.toNat ∧
        J < l'.verTileCount.toNat ∧ Collects l' l lo I J lc := by
  obtain ⟨k,l,l',lo,hl,hl',-,I,hI,J,hJ,hc⟩ := hw.sound lc hlc
  exact ⟨k,l,l',lo,I,J,hl,hl',hI,hJ,hc⟩

theorem tileAt_mem_tiles {k : ℕ} {l : Layer} {i j : ℕ} (hl : tb.layers[k]? = some l)
    (hi : i < l.horTileCount.toNat) (hj : j < l.verTileCount.toNat) : l.tileAt i j ∈ tiles tb :=
  mem_tiles.mpr ⟨k,l,hl,Layer.mem_tiles_flatten.mpr ⟨i,hi,j,hj,rfl⟩⟩

theorem nodup_of_wired (hw : Wired getBpp tb) : (tiles tb).Nodup := by
  refine List.nodup_flatMap.mpr ⟨fun l _ => nodup_layer l,?_⟩
  refine List.pairwise_iff_getElem.mpr fun k k' hk hk' hlt t ht ht' => ?_
  have h := depth_of_wired hw (List.getElem?_eq_getElem hk) ht
  have h' := depth_of_wired hw (List.getElem?_eq_getElem hk') ht'
  omega

theorem mem_baseTiles_of_wired (hw : Wired getBpp tb) (t : CompressedTile) :
    t ∈ baseTiles tb ↔ t ∈ tiles tb ∧ t.depth = 0 := by
  rw [mem_tiles]
  constructor
  · intro ht
    cases hl : tb.layers[0]? with
    | none => simp [baseTiles,hl] at ht
    | some l =>
      have hm : t ∈ l.tiles.flatten := by simpa [baseTiles,hl] using ht
      exact ⟨⟨0,l,hl,hm⟩,depth_of_wired hw hl hm⟩
  · rintro ⟨⟨k,l,hl,hm⟩,hd⟩
    have hk : k = 0 := by
      have h := depth_of_wired hw hl hm
      omega
    subst hk
    simpa [baseTiles,hl] using hm

theorem source_of_wired (hw : Wired getBpp tb) {lc : LayerCoordinator Lo} (hlc : lc ∈ tb.coordinators)
    {t : CompressedTile} (ht : t ∈ lc.registrations) : t ∈ tiles tb ∧ lc.targetTile.depth = t.depth+1 := by
  obtain ⟨k,l,l',lo,I,J,hl,hl',hI,hJ,hc⟩ := collected_of_wired hw hlc
  obtain ⟨i,hi,j,hj,-,-,rfl⟩ := (hc.mem t).mp ht
  refine ⟨tileAt_mem_tiles hl hi hj,?_⟩
  have hd := hw.depth _ _ hl'
  have hd' := hw.depth _ _ hl
  rw [hc.targetTile]
  simp [Layer.tileAt,hd,hd']

theorem lookup_inj_of_wired (hw : Wired getBpp tb) {lc : LayerCoordinator Lo} (hlc : lc ∈ tb.coordinators)
    {t t' : CompressedTile} (ht : t ∈ lc.registrations) (ht' : t' ∈ lc.registrations)
    (h : (lc.sourceTiles.lookup t).getD (0,0) = (lc.sourceTiles.lookup t').getD (0,0)) : t = t' := by
  obtain ⟨k,l,l',lo,I,J,-,-,-,-,hc⟩ := collected_of_wired hw hlc
  refine hc.offset_inj ht ht' ?_
  obtain ⟨i,-,j,-,-,-,rfl⟩ := (hc.mem t).mp ht
  obtain ⟨i',-,j',-,-,-,rfl⟩ := (hc.mem t').mp ht'
  rw [hc.offset i j ht,hc.offset i' j' ht'] at h ⊢
  exact congrArg some h

theorem exists_coordinator_of_wired (hw : Wired getBpp tb) {t : CompressedTile} (ht : t ∈ tiles tb)
    (hd : t.depth ≠ 0) : ∃ lc ∈ tb.coordinators, lc.targetTile = t := by
  obtain ⟨k,l,hl,hm⟩ := mem_tiles.mp ht
  have hk := depth_of_wired hw hl hm
  obtain ⟨I,hI,J,hJ,rfl⟩ := Layer.mem_tiles_flatten.mp hm
  cases k with
  | zero => exact absurd hk (by simpa using hd)
  | succ k => exact hw.complete k l hl I hI J hJ

theorem stack_of_wired (hw : Wired getBpp tb) : Stack tb where
  nodup := nodup_of_wired hw
  tileCount := by simp [hw.tileCount,tiles,List.length_flatMap,Function.comp_def]
  base := mem_baseTiles_of_wired hw
  depth := fun t ht => by
    obtain ⟨k,l,hl,hm⟩ := mem_tiles.mp ht
    have h := depth_of_wired hw hl hm
    omega
  targets := fun n m lc lc' hn hm ht => hw.place_unique hn hm ht
  target := fun lc hlc => by
    obtain ⟨k,l,l',lo,I,J,-,hl',hI,hJ,hc⟩ := collected_of_wired hw hlc
    exact hc.targetTile ▸ tileAt_mem_tiles hl' hI hJ
  source := fun lc hlc t ht => source_of_wired hw hlc ht
  nonempty := fun lc hlc => by
    obtain ⟨k,l,l',lo,I,J,hl,hl',hI,hJ,hc⟩ := collected_of_wired hw hlc
    exact List.length_pos_iff.mp (hc.length (hw.above k l l' hl hl') hI hJ).1
  registrations := fun lc hlc => by
    obtain ⟨k,l,l',lo,I,J,-,-,-,-,hc⟩ := collected_of_wired hw hlc
    exact hc.nodup
  unfinished := fun lc hlc => by
    obtain ⟨k,l,l',lo,I,J,-,-,-,-,hc⟩ := collected_of_wired hw hlc
    exact hc.unfinished
  offsets := fun lc hlc t ht t' ht' h => lookup_inj_of_wired hw hlc ht ht' h
  complete := fun t ht hd => exists_coordinator_of_wired hw ht hd

end Wired

/-! ### What holds between the steps -/

/-- The reduction that a task is on its way to. -/
def Task.reduction : Task → Option (ℕ × CompressedTile)
  | .notifyCoordinator n tile => some (n,tile)
  | .initialize_ n tile => some (n,tile)
  | .getTile n tile => some (n,tile)
  | .reduce n tile => some (n,tile)
  | _ => none

def Task.finishes (n : ℕ) : Task → Bool
  | .finish m _ => m = n
  | _ => false

def Task.notifiesBitmap : Task → Bool
  | .notifyBitmap _ => true
  | _ => false

/-- The reductions that are due for the tiles that were reported. -/
def reductions (tb : TiledBitmap Lo) (reported : List CompressedTile) : List (ℕ × CompressedTile) :=
  reported.flatMap fun tile => (observers tb tile).map fun n => (n,tile)

/-- The tiles that a coordinator has reduced. -/
def sources (reduced : List (ℕ × CompressedTile)) (n : ℕ) : List CompressedTile :=
  (reduced.filter (·.1 = n)).map Prod.snd

/-- The data of a target after some of its sources were reduced, in that order. -/
def result (R : Reductions Lo α) (final : CompressedTile → α) (lc : LayerCoordinator Lo)
    (sources : List CompressedTile) : α :=
  sources.foldl (fun target tile =>
    R.reduce lc.lo target (final tile) ((lc.sourceTiles.lookup tile).getD (0,0)))
    (R.initialData lc.targetTile)

/-- The final data of the tiles up to a depth, by the order in which the coordinators have
registered with their sources. -/
def finalTo (R : Reductions Lo α) (tb : TiledBitmap Lo) (base : CompressedTile → α) :
    ℕ → CompressedTile → α
  | 0, tile => base tile
  | k+1, tile =>
    (tb.coordinators.find? (·.targetTile = tile)).elim (base tile) fun lc =>
      result R (finalTo R tb base k) lc lc.registrations

def finalData (R : Reductions Lo α) (tb : TiledBitmap Lo) (base : CompressedTile → α)
    (tile : CompressedTile) : α := finalTo R tb base tile.depth.toNat tile

/-- What holds at any time, also while a coordinator is about to report its target. -/
structure Flow (R : Reductions Lo α) (tb : TiledBitmap Lo) (base : CompressedTile → α)
    (c : Config α) : Prop where
  due : (c.tasks.filterMap Task.reduction++c.reduced).Perm (reductions tb c.reported)
  finishing : ∀ n tile, .finish n tile ∈ c.tasks → (n,tile) ∈ c.reduced
  ready : ∀ n tile, .reduce n tile ∈ c.tasks → c.targetTileData n = true
  initialised : ∀ n tile, .getTile n tile ∈ c.tasks ∨ .reduce n tile ∈ c.tasks →
    ∀ lc, tb.coordinators[n]? = some lc → (c.data lc.targetTile).isSome
  unfinished : ∀ (n : ℕ) lc, tb.coordinators[n]? = some lc →
    c.unfinishedSourceTiles n+(sources c.reduced n).length =
      lc.registrations.length+c.tasks.countP (Task.finishes n)
  nodup : c.reported.Nodup
  subset : ∀ tile ∈ c.reported, tile ∈ tiles tb
  baseData : ∀ tile ∈ baseTiles tb, c.data tile = some (base tile)
  data : ∀ (n : ℕ) lc, tb.coordinators[n]? = some lc →
    c.data lc.targetTile = none ∧ sources c.reduced n = [] ∨
      c.data lc.targetTile = some (result R (finalData R tb base) lc (sources c.reduced n))
  final : ∀ tile ∈ c.reported, c.data tile = some (finalData R tb base tile)
  nonneg : 0 ≤ c.tileFinishedCount
  counted : c.tileFinishedCount+c.tasks.countP Task.notifiesBitmap = c.reported.length
  setFinished : c.setFinished = if 0 < tb.tileCount ∧ c.tileFinishedCount = tb.tileCount then 1 else 0

structure Inv (R : Reductions Lo α) (tb : TiledBitmap Lo) (base : CompressedTile → α)
    (c : Config α) : Prop extends Flow R tb base c where
  target : ∀ (n : ℕ) lc, tb.coordinators[n]? = some lc →
    (lc.targetTile ∈ c.reported ↔ c.unfinishedSourceTiles n = 0)

variable {R : Reductions Lo α} {tb : TiledBitmap Lo} {base : CompressedTile → α} {c d : Config α}

theorem mem_observers {n : ℕ} {tile : CompressedTile} : n ∈ observers tb tile ↔
    ∃ lc, tb.coordinators[n]? = some lc ∧ tile ∈ lc.registrations := by
  simp only [observers,List.mem_filter,List.mem_range,Option.any_eq_true,decide_eq_true_eq]
  constructor
  · rintro ⟨-,h⟩
    exact h
  · rintro ⟨lc,hlc,ht⟩
    exact ⟨(List.getElem?_eq_some_iff.mp hlc).1,lc,hlc,ht⟩

theorem mem_reductions {reported : List CompressedTile} {n : ℕ} {tile : CompressedTile} :
    (n,tile) ∈ reductions tb reported ↔ tile ∈ reported ∧ n ∈ observers tb tile := by
  simp only [reductions,List.mem_flatMap,List.mem_map,Prod.mk.injEq]
  constructor
  · rintro ⟨t,ht,m,hm,rfl,rfl⟩
    exact ⟨ht,hm⟩
  · rintro ⟨ht,hm⟩
    exact ⟨tile,ht,n,hm,rfl,rfl⟩

theorem nodup_reductions {reported : List CompressedTile} (h : reported.Nodup) :
    (reductions tb reported).Nodup := by
  refine List.nodup_flatMap.mpr ⟨fun tile _ => ?_,?_⟩
  · exact (List.nodup_range.filter _).map fun _ _ h => (Prod.mk.inj h).1
  · refine h.imp fun {t t'} hne e he he' => hne ?_
    obtain ⟨n,-,rfl⟩ := List.mem_map.mp he
    obtain ⟨m,-,he⟩ := List.mem_map.mp he'
    exact (Prod.mk.inj he).2.symm

theorem Flow.nodup_due (hi : Flow R tb base c) :
    (c.tasks.filterMap Task.reduction++c.reduced).Nodup :=
  hi.due.nodup_iff.mpr (nodup_reductions hi.nodup)

theorem Flow.of_reduced (hi : Flow R tb base c) {n : ℕ} {tile : CompressedTile}
    (h : (n,tile) ∈ c.reduced) : tile ∈ c.reported ∧ n ∈ observers tb tile :=
  mem_reductions.mp (hi.due.mem_iff.mp (List.mem_append_right _ h))

theorem Flow.of_task (hi : Flow R tb base c) {task : Task} (h : task ∈ c.tasks) {n : ℕ}
    {tile : CompressedTile} (hr : task.reduction = some (n,tile)) :
    tile ∈ c.reported ∧ n ∈ observers tb tile ∧ (n,tile) ∉ c.reduced := by
  have hm : (n,tile) ∈ c.tasks.filterMap Task.reduction := List.mem_filterMap.mpr ⟨task,h,hr⟩
  obtain ⟨ht,hn⟩ := mem_reductions.mp (hi.due.mem_iff.mp (List.mem_append_left _ hm))
  exact ⟨ht,hn,fun hd => (List.disjoint_of_nodup_append hi.nodup_due) hm hd⟩

theorem mem_sources {reduced : List (ℕ × CompressedTile)} {n : ℕ} {tile : CompressedTile} :
    tile ∈ sources reduced n ↔ (n,tile) ∈ reduced := by
  simp [sources]

theorem Flow.nodup_sources (hi : Flow R tb base c) (n : ℕ) : (sources c.reduced n).Nodup := by
  have hr : c.reduced.Nodup := (List.nodup_append.mp hi.nodup_due).2.1
  refine (hr.filter _).map_on fun e he e' he' h => Prod.ext ?_ h
  have h₁ : e.1 = n := by simpa using (List.mem_filter.mp he).2
  have h₂ : e'.1 = n := by simpa using (List.mem_filter.mp he').2
  exact h₁.trans h₂.symm

theorem Flow.sources_subperm (hi : Flow R tb base c) {n : ℕ} {lc : LayerCoordinator Lo}
    (hn : tb.coordinators[n]? = some lc) : (sources c.reduced n).Subperm lc.registrations := by
  refine List.subperm_of_subset (hi.nodup_sources n) fun tile ht => ?_
  obtain ⟨lc',hn',hr⟩ := mem_observers.mp (hi.of_reduced (mem_sources.mp ht)).2
  cases hn.symm.trans hn'
  exact hr

theorem Flow.sources_perm (hi : Flow R tb base c) {n : ℕ} {lc : LayerCoordinator Lo}
    (hn : tb.coordinators[n]? = some lc) (hu : c.unfinishedSourceTiles n = 0) :
    (sources c.reduced n).Perm lc.registrations := by
  have h := hi.unfinished n lc hn
  exact (hi.sources_subperm hn).perm_of_length_le (by omega)

/-- As long as a task of a coordinator is due, the coordinator has something left. -/
theorem Flow.unfinished_ne (hi : Flow R tb base c) {task : Task} (h : task ∈ c.tasks) {n : ℕ}
    {tile : CompressedTile} (hr : task.reduction = some (n,tile)) : c.unfinishedSourceTiles n ≠ 0 := by
  intro hu
  obtain ⟨-,hn,hd⟩ := hi.of_task h hr
  obtain ⟨lc,hlc,ht⟩ := mem_observers.mp hn
  exact hd (mem_sources.mp ((hi.sources_perm hlc hu).mem_iff.mpr ht))

theorem Inv.perm (hi : Inv R tb base c) {tasks : List Task} (hp : c.tasks.Perm tasks) :
    Inv R tb base { c with tasks := tasks } where
  __ := hi
  due := ((hp.symm.filterMap _).append_right _).trans hi.due
  finishing := fun n tile h => hi.finishing n tile (hp.mem_iff.mpr h)
  ready := fun n tile h => hi.ready n tile (hp.mem_iff.mpr h)
  initialised := fun n tile h => hi.initialised n tile (h.imp hp.mem_iff.mpr hp.mem_iff.mpr)
  unfinished := fun n lc h => hp.countP_eq (Task.finishes n) ▸ hi.unfinished n lc h
  counted := hp.countP_eq Task.notifiesBitmap ▸ hi.counted

/-! ### The final data -/

theorem result_snoc (final : CompressedTile → α) (lc : LayerCoordinator Lo) (l : List CompressedTile)
    (tile : CompressedTile) : result R final lc (l++[tile]) =
      R.reduce lc.lo (result R final lc l) (final tile) ((lc.sourceTiles.lookup tile).getD (0,0)) := by
  simp [result]

/-- The order of the sources does not matter, since no two have the same place. -/
theorem Stack.result_perm (hs : Stack tb) {lc : LayerCoordinator Lo} (hlc : lc ∈ tb.coordinators)
    {l : List CompressedTile} (hp : l.Perm lc.registrations) (final : CompressedTile → α) :
    result R final lc l = result R final lc lc.registrations := by
  refine hp.foldl_eq' (fun t ht t' ht' data => ?_) _
  by_cases h : t = t'
  · rw [h]
  · exact R.comm _ _ _ _ _ _ fun he =>
      h (hs.offsets lc hlc t (hp.mem_iff.mp ht) t' (hp.mem_iff.mp ht') he)

theorem Stack.finalData_base (hs : Stack tb) {tile : CompressedTile} (ht : tile ∈ baseTiles tb) :
    finalData R tb base tile = base tile := by
  have hd : tile.depth.toNat = 0 := by simp [((hs.base tile).mp ht).2]
  rw [finalData,hd,finalTo]

theorem Stack.find_target (hs : Stack tb) {lc : LayerCoordinator Lo} (hlc : lc ∈ tb.coordinators) :
    tb.coordinators.find? (·.targetTile = lc.targetTile) = some lc := by
  obtain ⟨lc',h⟩ := Option.isSome_iff_exists.mp
    (List.find?_isSome (p := fun lc' => decide (lc'.targetTile = lc.targetTile)).mpr ⟨lc,hlc,by simp⟩)
  have ht : lc'.targetTile = lc.targetTile := by simpa using List.find?_some h
  obtain ⟨n,hn⟩ := List.mem_iff_getElem?.mp hlc
  obtain ⟨m,hm⟩ := List.mem_iff_getElem?.mp (List.mem_of_find?_eq_some h)
  obtain rfl := hs.targets m n lc' lc hm hn ht
  cases hm.symm.trans hn
  exact h

theorem Stack.finalData_target (hs : Stack tb) {lc : LayerCoordinator Lo} (hlc : lc ∈ tb.coordinators) :
    finalData R tb base lc.targetTile = result R (finalData R tb base) lc lc.registrations := by
  obtain ⟨t,ht⟩ := List.exists_mem_of_ne_nil _ (hs.nonempty lc hlc)
  obtain ⟨hm,hd⟩ := hs.source lc hlc t ht
  have hpos := hs.depth t hm
  have hk : lc.targetTile.depth.toNat = t.depth.toNat+1 := by omega
  have he : ∀ s ∈ lc.registrations, finalTo R tb base t.depth.toNat s = finalData R tb base s := by
    intro s hsource
    have hds := (hs.source lc hlc s hsource).2
    rw [finalData,show s.depth.toNat = t.depth.toNat by omega]
  rw [finalData,hk,finalTo,hs.find_target hlc]
  exact List.foldl_ext _ _ _ fun data s hsource => by rw [he s hsource]

/-! ### The steps -/

variable {tile : CompressedTile} {rest : List Task} {n : ℕ} {lc : LayerCoordinator Lo}

theorem Flow.reported_le (hi : Flow R tb base c) (hs : Stack tb) :
    (c.reported.length : ℤ) ≤ tb.tileCount := by
  have h := (List.subperm_of_subset hi.nodup hi.subset).length_le
  have ht := hs.tileCount
  omega

theorem Inv.tileFinishedCount_lt (hs : Stack tb) (hi : Inv R tb base { c with tasks := .notifyBitmap tile::rest }) :
    0 ≤ c.tileFinishedCount ∧ c.tileFinishedCount+1 ≤ tb.tileCount := by
  have hle := hi.reported_le hs
  have hcount := hi.counted
  have hnonneg := hi.nonneg
  simp only [List.countP_cons,Task.notifiesBitmap,if_true] at hcount hle hnonneg
  push_cast at hcount
  omega

/-- There are never too many finished tiles. -/
theorem Inv.exists_notifyBitmap (hs : Stack tb) (hfit : tb.tileCount ≤ MachineInt.intMax)
    (hi : Inv R tb base { c with tasks := .notifyBitmap tile::rest }) :
    ∃ d, perform R tb { c with tasks := rest } (.notifyBitmap tile) = some d := by
  obtain ⟨hnonneg,hle⟩ := hi.tileFinishedCount_lt hs
  have hint : MachineInt.checked (c.tileFinishedCount+1) = some (c.tileFinishedCount+1) :=
    MachineInt.checked_eq_some.mpr ⟨⟨by simp only [MachineInt.intMin]; omega,by omega⟩,rfl⟩
  exact ⟨_,by simp only [perform,hint,Option.bind_eq_bind,Option.bind_some,if_neg (not_lt.mpr hle)]; rfl⟩

theorem Inv.notifyBitmap (hs : Stack tb) (hi : Inv R tb base { c with tasks := .notifyBitmap tile::rest })
    (h : perform R tb { c with tasks := rest } (.notifyBitmap tile) = some d) : Inv R tb base d := by
  obtain ⟨hnonneg,hle⟩ := hi.tileFinishedCount_lt hs
  have hcount := hi.counted
  simp only [List.countP_cons,Task.notifiesBitmap,if_true] at hcount
  obtain ⟨n,hn,h⟩ := Option.bind_eq_some_iff.mp h
  obtain ⟨-,rfl⟩ := MachineInt.checked_eq_some.mp hn
  rw [if_neg (not_lt.mpr hle)] at h
  cases h
  exact { hi with
    finishing := fun m t h => hi.finishing m t (List.mem_cons_of_mem _ h)
    ready := fun m t h => hi.ready m t (List.mem_cons_of_mem _ h)
    initialised := fun m t h =>
      hi.initialised m t (h.imp (List.mem_cons_of_mem _) (List.mem_cons_of_mem _))
    unfinished := fun m lc h => by
      simpa [Task.finishes] using hi.unfinished m lc h
    nonneg := by
      simp only
      omega
    counted := by
      push_cast at hcount ⊢
      linarith
    setFinished := by
      have hset := hi.setFinished
      simp only at hset ⊢
      rw [if_neg (show ¬ (0 < tb.tileCount ∧ c.tileFinishedCount = tb.tileCount) by omega)] at hset
      rw [hset]
      exact if_congr (by omega) rfl rfl }

theorem Inv.notifyCoordinator
    (hi : Inv R tb base { c with tasks := .notifyCoordinator n tile::rest }) :
    ∃ d, perform R tb { c with tasks := rest } (.notifyCoordinator n tile) = some d ∧
      Inv R tb base d := by
  have hd : Inv R tb base { c with tasks := .initialize_ n tile::rest } := { hi with
    finishing := fun m t h => hi.finishing m t (by simpa using h)
    ready := fun m t h => hi.ready m t (by simpa using h)
    initialised := fun m t h => hi.initialised m t (by simpa using h)
    unfinished := fun m lc h => by simpa [Task.finishes] using hi.unfinished m lc h
    counted := by simpa [Task.notifiesBitmap] using hi.counted }
  exact ⟨_,rfl,hd.perm (List.perm_append_singleton _ _).symm⟩

theorem Stack.base_ne (hs : Stack tb) {t : CompressedTile} (ht : t ∈ baseTiles tb)
    (hlc : lc ∈ tb.coordinators) : t ≠ lc.targetTile := by
  rintro rfl
  obtain ⟨s,hm⟩ := List.exists_mem_of_ne_nil _ (hs.nonempty lc hlc)
  obtain ⟨hsource,hd⟩ := hs.source lc hlc s hm
  have hpos := hs.depth s hsource
  have hzero := ((hs.base _).mp ht).2
  omega

theorem Inv.target_notReported (hi : Inv R tb base c) {task : Task} (h : task ∈ c.tasks)
    (hr : task.reduction = some (n,tile)) (hlc : tb.coordinators[n]? = some lc) :
    lc.targetTile ∉ c.reported :=
  fun ht => hi.unfinished_ne h hr ((hi.target n lc hlc).mp ht)

theorem Flow.baseData_update (hi : Flow R tb base c) (hs : Stack tb) (hlc : lc ∈ tb.coordinators)
    (v : α) : ∀ t ∈ baseTiles tb, Function.update c.data lc.targetTile (some v) t = some (base t) :=
  fun t ht => by simpa [Function.update_of_ne (hs.base_ne ht hlc)] using hi.baseData t ht

theorem Flow.final_update (hi : Flow R tb base c) (hnot : lc.targetTile ∉ c.reported) (v : α) :
    ∀ t ∈ c.reported,
      Function.update c.data lc.targetTile (some v) t = some (finalData R tb base t) :=
  fun t ht => by
    have hne : t ≠ lc.targetTile := fun h => hnot (h ▸ ht)
    simpa [Function.update_of_ne hne] using hi.final t ht

/-- Writing a target changes the data of its coordinator only. -/
theorem Stack.data_update (hs : Stack tb) {data : CompressedTile → Option α} {v : α}
    {final : CompressedTile → α} {reduced : List (ℕ × CompressedTile)}
    (hlc : tb.coordinators[n]? = some lc) (hv : v = result R final lc (sources reduced n))
    (hother : ∀ (m : ℕ) lc', n ≠ m → tb.coordinators[m]? = some lc' →
      data lc'.targetTile = none ∧ sources reduced m = [] ∨
        data lc'.targetTile = some (result R final lc' (sources reduced m))) :
    ∀ (m : ℕ) lc', tb.coordinators[m]? = some lc' →
      Function.update data lc.targetTile (some v) lc'.targetTile = none ∧ sources reduced m = [] ∨
        Function.update data lc.targetTile (some v) lc'.targetTile =
          some (result R final lc' (sources reduced m)) := by
  intro m lc' hlc'
  by_cases ht : lc'.targetTile = lc.targetTile
  · obtain rfl := hs.targets m n lc' lc hlc' hlc ht
    cases hlc.symm.trans hlc'
    simp [hv]
  · have hm : n ≠ m := by
      rintro rfl
      cases hlc.symm.trans hlc'
      exact ht rfl
    simpa [Function.update_of_ne ht] using hother m lc' hm hlc'

theorem Inv.initialize_ (hs : Stack tb)
    (hi : Inv R tb base { c with tasks := .initialize_ n tile::rest }) :
    ∃ d, perform R tb { c with tasks := rest } (.initialize_ n tile) = some d ∧ Inv R tb base d := by
  have hmem : Task.initialize_ n tile ∈ Task.initialize_ n tile::rest := List.mem_cons_self
  obtain ⟨-,hn,-⟩ := hi.of_task hmem rfl
  obtain ⟨lc,hlc,-⟩ := mem_observers.mp hn
  have hlcm := List.mem_of_getElem? hlc
  have hnot := hi.target_notReported hmem rfl hlc
  have hdata : (c.data lc.targetTile).getD (R.initialData lc.targetTile) =
      result R (finalData R tb base) lc (sources c.reduced n) := by
    rcases hi.data n lc hlc with ⟨h,hnil⟩ | h
    · have hnil' : sources c.reduced n = [] := hnil
      have h' : c.data lc.targetTile = none := h
      rw [h',hnil']
      rfl
    · have h' : c.data lc.targetTile = some (result R (finalData R tb base) lc (sources c.reduced n)) := h
      rw [h']
      rfl
  have hd : Inv R tb base { c with
      data := Function.update c.data lc.targetTile
        (some ((c.data lc.targetTile).getD (R.initialData lc.targetTile)))
      tasks := .getTile n tile::rest } := { hi with
    finishing := fun m t h => hi.finishing m t (by simpa using h)
    ready := fun m t h => hi.ready m t (by simpa using h)
    initialised := fun m t h lc' hlc' => by
      by_cases ht : lc'.targetTile = lc.targetTile
      · simp [ht]
      · have h' : Task.getTile m t ∈ rest ∨ Task.reduce m t ∈ rest := by
          rcases h with h | h
          · rcases List.mem_cons.mp h with he | h
            · cases he
              cases hlc.symm.trans hlc'
              exact absurd rfl ht
            · exact Or.inl h
          · exact Or.inr (by simpa using h)
        simpa [Function.update_of_ne ht] using
          hi.initialised m t (h'.imp (List.mem_cons_of_mem _) (List.mem_cons_of_mem _)) lc' hlc'
    unfinished := fun m lc h => by simpa [Task.finishes] using hi.unfinished m lc h
    baseData := hi.baseData_update hs hlcm _
    data := hs.data_update hlc hdata fun m lc' _ hlc' => hi.data m lc' hlc'
    final := hi.final_update hnot _
    counted := by simpa [Task.notifiesBitmap] using hi.counted }
  exact ⟨_,by simp only [perform,hlc]; rfl,hd.perm (List.perm_append_singleton _ _).symm⟩

theorem Inv.getTile (hi : Inv R tb base { c with tasks := .getTile n tile::rest }) :
    ∃ d, perform R tb { c with tasks := rest } (.getTile n tile) = some d ∧ Inv R tb base d := by
  have hd : Inv R tb base { c with
      targetTileData := Function.update c.targetTileData n true
      tasks := .reduce n tile::rest } := { hi with
    finishing := fun m t h => hi.finishing m t (by simpa using h)
    ready := fun m t h => by
      by_cases hm : m = n
      · simp [hm]
      · have h' : Task.reduce m t ∈ rest := by simpa [hm] using h
        simpa [Function.update_of_ne hm] using hi.ready m t (List.mem_cons_of_mem _ h')
    initialised := fun m t h lc hlc => by
      rcases h with h | h
      · exact hi.initialised m t (Or.inl (List.mem_cons_of_mem _ (by simpa using h))) lc hlc
      · rcases List.mem_cons.mp h with he | h
        · cases he
          exact hi.initialised n tile (Or.inl List.mem_cons_self) lc hlc
        · exact hi.initialised m t (Or.inr (List.mem_cons_of_mem _ h)) lc hlc
    unfinished := fun m lc h => by simpa [Task.finishes] using hi.unfinished m lc h
    counted := by simpa [Task.notifiesBitmap] using hi.counted }
  exact ⟨_,rfl,hd.perm (List.perm_append_singleton _ _).symm⟩

theorem sources_snoc (m : ℕ) (reduced : List (ℕ × CompressedTile)) :
    sources (reduced++[(n,tile)]) m = sources reduced m++if n = m then [tile] else [] := by
  by_cases h : n = m <;> simp [sources,List.filter_append,h]

theorem Inv.reduce (hs : Stack tb)
    (hi : Inv R tb base { c with tasks := .reduce n tile::rest }) :
    ∃ d, perform R tb { c with tasks := rest } (.reduce n tile) = some d ∧ Inv R tb base d := by
  have hmem : Task.reduce n tile ∈ Task.reduce n tile::rest := List.mem_cons_self
  obtain ⟨hrep,hn,hnew⟩ := hi.of_task hmem rfl
  obtain ⟨lc,hlc,htile⟩ := mem_observers.mp hn
  have hlcm := List.mem_of_getElem? hlc
  have hnot := hi.target_notReported hmem rfl hlc
  have hready : c.targetTileData n = true := hi.ready n tile hmem
  have hsource : c.data tile = some (finalData R tb base tile) := hi.final tile hrep
  have htarget : c.data lc.targetTile = some (result R (finalData R tb base) lc (sources c.reduced n)) := by
    rcases hi.data n lc hlc with ⟨h,-⟩ | h
    · have hsome := hi.initialised n tile (Or.inr hmem) lc hlc
      rw [h] at hsome
      cases hsome
    · exact h
  have hd : Inv R tb base { c with
      data := Function.update c.data lc.targetTile (some (R.reduce lc.lo
        (result R (finalData R tb base) lc (sources c.reduced n)) (finalData R tb base tile)
        ((lc.sourceTiles.lookup tile).getD (0,0))))
      reduced := c.reduced++[(n,tile)]
      tasks := .finish n tile::rest } := { hi with
    due := by
      refine List.Perm.trans ?_ hi.due
      have hp : (rest.filterMap Task.reduction++(c.reduced++[(n,tile)])).Perm
          ((n,tile)::(rest.filterMap Task.reduction++c.reduced)) := by
        rw [← List.append_assoc]
        exact List.perm_append_singleton _ _
      exact hp
    finishing := fun m t h => by
      rcases List.mem_cons.mp h with he | h
      · cases he
        simp
      · exact List.mem_append_left _ (hi.finishing m t (List.mem_cons_of_mem _ h))
    ready := fun m t h => hi.ready m t (List.mem_cons_of_mem _ (by simpa using h))
    initialised := fun m t h lc' hlc' => by
      by_cases ht : lc'.targetTile = lc.targetTile
      · simp [ht]
      · have h' : Task.getTile m t ∈ rest ∨ Task.reduce m t ∈ rest := by simpa using h
        simpa [Function.update_of_ne ht] using
          hi.initialised m t (h'.imp (List.mem_cons_of_mem _) (List.mem_cons_of_mem _)) lc' hlc'
    unfinished := fun m lc' hlc' => by
      have hu := hi.unfinished m lc' hlc'
      by_cases hm : n = m
      · simp only [sources_snoc,hm,if_true,List.countP_cons,Task.finishes,List.length_append,
          List.length_singleton] at hu ⊢
        push_cast at hu ⊢
        simp at hu ⊢
        linarith
      · simpa [sources_snoc,hm,Task.finishes] using hu
    baseData := hi.baseData_update hs hlcm _
    data := hs.data_update hlc (by simp [sources_snoc,result_snoc]) fun m lc' hm hlc' => by
      simpa [sources_snoc,hm] using hi.data m lc' hlc'
    final := hi.final_update hnot _
    counted := by simpa [Task.notifiesBitmap] using hi.counted }
  refine ⟨_,?_,hd.perm (List.perm_append_singleton _ _).symm⟩
  simp [perform,hlc,hready,htarget,hsource]

theorem filterMap_notifyCoordinator (l : List ℕ) (tile : CompressedTile) :
    (l.map fun n => Task.notifyCoordinator n tile).filterMap Task.reduction =
      l.map fun n => (n,tile) := by
  simp [List.filterMap_map,Function.comp_def,Task.reduction]

/-- A tile that has its final data is reported for the first time. -/
theorem Flow.report (hi : Flow R tb base c) (hnew : tile ∉ c.reported) (hm : tile ∈ tiles tb)
    (hdata : c.data tile = some (finalData R tb base tile)) :
    Flow R tb base (reportFinished tb c tile) := by
  have hnot : ∀ task ∈ (observers tb tile).map fun n => Task.notifyCoordinator n tile,
      ∃ n, task = .notifyCoordinator n tile := fun task h => by
    obtain ⟨n,-,he⟩ := List.mem_map.mp h
    exact ⟨n,he.symm⟩
  have hold : ∀ task, (∀ n, task ≠ .notifyCoordinator n tile) → task ≠ .notifyBitmap tile →
      task ∈ (reportFinished tb c tile).tasks → task ∈ c.tasks := fun task hc hb h => by
    rcases List.mem_append.mp h with h | h
    · exact h
    · rcases List.mem_cons.mp h with h | h
      · exact absurd h hb
      · obtain ⟨n,he⟩ := hnot task h
        exact absurd he (hc n)
  have hcount : ∀ p : Task → Bool, (∀ n, p (.notifyCoordinator n tile) = false) →
      (reportFinished tb c tile).tasks.countP p =
        c.tasks.countP p+if p (.notifyBitmap tile) then 1 else 0 := fun p hp => by
    have hz : ((observers tb tile).map fun n => Task.notifyCoordinator n tile).countP p = 0 :=
      List.countP_eq_zero.mpr fun task h => by
        obtain ⟨n,rfl⟩ := hnot task h
        simp [hp n]
    simp [reportFinished,List.countP_append,List.countP_cons,hz]
  exact { hi with
    due := by
      have hnew : ((.notifyBitmap tile::(observers tb tile).map fun n => .notifyCoordinator n tile) :
          List Task).filterMap Task.reduction = (observers tb tile).map fun n => (n,tile) :=
        filterMap_notifyCoordinator _ tile
      simp only [reportFinished,List.filterMap_append,hnew,reductions,List.flatMap_append,
        List.flatMap_singleton,List.append_assoc]
      refine (List.perm_append_comm.append_left _).trans ?_
      rw [← List.append_assoc]
      exact hi.due.append_right _
    finishing := fun m t h => hi.finishing m t (hold _ (by simp) (by simp) h)
    ready := fun m t h => hi.ready m t (hold _ (by simp) (by simp) h)
    initialised := fun m t h =>
      hi.initialised m t (h.imp (hold _ (by simp) (by simp)) (hold _ (by simp) (by simp)))
    unfinished := fun m lc h => by
      rw [hcount _ (fun _ => rfl)]
      exact hi.unfinished m lc h
    nodup := List.nodup_append.mpr ⟨hi.nodup,List.nodup_singleton _,fun a ha b hb => by
      rw [List.mem_singleton.mp hb]
      exact fun h => hnew (h ▸ ha)⟩
    subset := fun t ht => by
      rcases List.mem_append.mp ht with ht | ht
      · exact hi.subset t ht
      · exact List.mem_singleton.mp ht ▸ hm
    final := fun t ht => by
      rcases List.mem_append.mp ht with ht | ht
      · exact hi.final t ht
      · exact List.mem_singleton.mp ht ▸ hdata
    counted := by
      rw [hcount _ (fun _ => rfl)]
      have h := hi.counted
      simp only [reportFinished,Task.notifiesBitmap,if_true,List.length_append,List.length_singleton]
      push_cast
      linarith }

theorem Flow.decrement (hi : Flow R tb base { c with tasks := .finish n tile::rest }) :
    Flow R tb base { c with
      unfinishedSourceTiles := Function.update c.unfinishedSourceTiles n (c.unfinishedSourceTiles n-1)
      tasks := rest } where
  __ := hi
  finishing := fun m t h => hi.finishing m t (List.mem_cons_of_mem _ h)
  ready := fun m t h => hi.ready m t (List.mem_cons_of_mem _ h)
  initialised := fun m t h =>
    hi.initialised m t (h.imp (List.mem_cons_of_mem _) (List.mem_cons_of_mem _))
  unfinished := fun m lc hlc => by
    have hu := hi.unfinished m lc hlc
    by_cases hm : n = m
    · subst hm
      simp only [List.countP_cons,Task.finishes,decide_true,if_true] at hu
      push_cast at hu
      simp only [Function.update_self]
      linarith
    · simpa [Function.update_of_ne (Ne.symm hm),Task.finishes,hm] using hu
  counted := by simpa [Task.notifiesBitmap] using hi.counted

theorem Inv.finish (hs : Stack tb)
    (hi : Inv R tb base { c with tasks := .finish n tile::rest }) :
    ∃ d, perform R tb { c with tasks := rest } (.finish n tile) = some d ∧ Inv R tb base d := by
  have hred : (n,tile) ∈ c.reduced := hi.finishing n tile List.mem_cons_self
  obtain ⟨lc,hlc,-⟩ := mem_observers.mp (hi.of_reduced hred).2
  have hlcm := List.mem_of_getElem? hlc
  have hd := hi.toFlow.decrement
  have hle := (hd.sources_subperm hlc).length_le
  have hu := hd.unfinished n lc hlc
  simp only [Function.update_self] at hu
  have hnot : lc.targetTile ∉ c.reported := fun h => by
    have hz : c.unfinishedSourceTiles n = 0 := (hi.target n lc hlc).mp h
    simp only at hle
    omega
  have hother : ∀ (m : ℕ) lc', tb.coordinators[m]? = some lc' → m ≠ n →
      lc'.targetTile ≠ lc.targetTile := fun m lc' hlc' hm ht =>
    hm (hs.targets m n lc' lc hlc' hlc ht)
  by_cases hz : c.unfinishedSourceTiles n-1 = 0
  · have hperm := hd.sources_perm hlc (by simpa using hz)
    have hdata : c.data lc.targetTile = some (finalData R tb base lc.targetTile) := by
      rcases hd.data n lc hlc with ⟨-,hnil⟩ | h
      · have hm := mem_sources.mpr hred
        simp only at hnil
        rw [hnil] at hm
        cases hm
      · rw [hs.finalData_target hlcm,← hs.result_perm hlcm hperm]
        exact h
    have hr := hd.report hnot (hs.target lc hlcm) hdata
    refine ⟨_,by simp only [perform,hlc,Option.bind_eq_bind,Option.bind_some,hz,if_true]; rfl,?_⟩
    exact { hr with
      due := by simpa [hz] using hr.due
      ready := fun m t h => by
        by_cases hm : m = n
        · subst hm
          obtain ⟨-,hobs,hnew⟩ := hr.of_task h rfl
          obtain ⟨lc',hlc',ht⟩ := mem_observers.mp hobs
          cases hlc.symm.trans hlc'
          exact absurd (mem_sources.mp (hperm.mem_iff.mpr ht)) hnew
        · simp only [Function.update_of_ne hm]
          exact hr.ready m t h
      unfinished := by simpa [hz] using hr.unfinished
      target := fun m lc' hlc' => by
        by_cases hm : m = n
        · subst hm
          cases hlc.symm.trans hlc'
          simp [reportFinished]
        · simpa [reportFinished,hother m lc' hlc' hm,Function.update_of_ne hm] using hi.target m lc' hlc' }
  · refine ⟨_,by simp only [perform,hlc,Option.bind_eq_bind,Option.bind_some,hz,if_false]; rfl,hd,?_⟩
    intro m lc' hlc'
    by_cases hm : m = n
    · subst hm
      cases hlc.symm.trans hlc'
      simp [hnot,hz]
    · simpa [Function.update_of_ne hm] using hi.target m lc' hlc'

theorem Inv.reportBase (hs : Stack tb) (hi : Inv R tb base c) (ht : tile ∈ baseTiles tb)
    (hnew : tile ∉ c.reported) : Inv R tb base (reportFinished tb c tile) where
  toFlow := hi.toFlow.report hnew ((hs.base tile).mp ht).1
    ((hi.baseData tile ht).trans (congrArg some (hs.finalData_base ht).symm))
  target := fun n lc hlc => by
    have hne := (hs.base_ne ht (List.mem_of_getElem? hlc)).symm
    simpa [reportFinished,hne] using hi.target n lc hlc

theorem Inv.perform (hs : Stack tb) (hfit : tb.tileCount ≤ MachineInt.intMax) (hi : Inv R tb base c) {task : Task}
    (ht : task ∈ c.tasks) : ∃ d, perform R tb { c with tasks := c.tasks.erase task } task = some d := by
  have hp : Inv R tb base { c with tasks := task::c.tasks.erase task } :=
    hi.perm (List.perm_cons_erase ht)
  cases task with
  | notifyBitmap tile => exact hp.exists_notifyBitmap hs hfit
  | notifyCoordinator n tile => exact hp.notifyCoordinator.imp fun _ h => h.1
  | initialize_ n tile => exact (hp.initialize_ hs).imp fun _ h => h.1
  | getTile n tile => exact hp.getTile.imp fun _ h => h.1
  | reduce n tile => exact (hp.reduce hs).imp fun _ h => h.1
  | finish n tile => exact (hp.finish hs).imp fun _ h => h.1

theorem Inv.of_perform (hs : Stack tb) (hi : Inv R tb base c) {task : Task} (ht : task ∈ c.tasks)
    (h : Cascade.perform R tb { c with tasks := c.tasks.erase task } task = some d) : Inv R tb base d := by
  have hp : Inv R tb base { c with tasks := task::c.tasks.erase task } :=
    hi.perm (List.perm_cons_erase ht)
  have hd : (∃ e, Cascade.perform R tb { c with tasks := c.tasks.erase task } task = some e ∧ Inv R tb base e) →
      Inv R tb base d := by
    rintro ⟨e,he,hi⟩
    cases h.symm.trans he
    exact hi
  cases task with
  | notifyBitmap tile => exact hp.notifyBitmap hs h
  | notifyCoordinator n tile => exact hd hp.notifyCoordinator
  | initialize_ n tile => exact hd (hp.initialize_ hs)
  | getTile n tile => exact hd hp.getTile
  | reduce n tile => exact hd (hp.reduce hs)
  | finish n tile => exact hd (hp.finish hs)

theorem Inv.step (hs : Stack tb) (hi : Inv R tb base c) {a : Action}
    (h : step R tb c a = some d) : Inv R tb base d := by
  cases a with
  | reportFinished tile =>
    simp only [Cascade.step] at h
    split at h
    case isTrue ht =>
      cases h
      exact hi.reportBase hs ht.1 ht.2
    case isFalse => cases h
  | perform task =>
    simp only [Cascade.step] at h
    split at h
    case isTrue ht => exact hi.of_perform hs ht h
    case isFalse => cases h

theorem inv_initial (hs : Stack tb) (base : CompressedTile → α) :
    Inv R tb base (initial tb base) where
  due := List.Perm.refl _
  finishing := by simp [initial]
  ready := by simp [initial]
  initialised := by simp [initial]
  unfinished := fun n lc hlc => by
    simp [initial,hlc,sources,hs.unfinished lc (List.mem_of_getElem? hlc)]
  nodup := List.nodup_nil
  subset := by simp [initial]
  baseData := fun t ht => by simp [initial,ht]
  data := fun n lc hlc => by
    have hne : lc.targetTile ∉ baseTiles tb := fun h =>
      hs.base_ne h (List.mem_of_getElem? hlc) rfl
    exact Or.inl ⟨by simp [initial,hne],rfl⟩
  final := by simp [initial]
  nonneg := le_rfl
  counted := rfl
  setFinished := by
    have h : ¬ (0 < tb.tileCount ∧ (0:ℤ) = tb.tileCount) := by omega
    simp [initial,h]
  target := fun n lc hlc => by
    have hm := List.mem_of_getElem? hlc
    have hpos := List.length_pos_iff.mpr (hs.nonempty lc hm)
    have hu := hs.unfinished lc hm
    simp [initial,hlc]
    omega

theorem inv_run (hs : Stack tb) {as : List Action}
    (h : run (step R tb) as (initial tb base) = some c) : Inv R tb base c :=
  run_invariant (fun _ _ _ hi h => hi.step hs h) (inv_initial hs base) h

/-! ### Any number of steps, in any order -/

/-- What is due in a state that a run can reach. -/
structure Orderly (R : Reductions Lo α) (tb : TiledBitmap Lo) (base : CompressedTile → α)
    (c : Config α) : Prop where
  /-- Every task can be performed, so no data is used before it is there, and the count of the
  finished tiles does not get too large. -/
  performs : ∀ task ∈ c.tasks, ∃ d, step R tb c (.perform task) = some d
  initialised : ∀ n tile, .reduce n tile ∈ c.tasks → ∃ lc, tb.coordinators[n]? = some lc ∧
    (c.data lc.targetTile).isSome
  reducedOnce : c.reduced.Nodup ∧ ∀ n tile, (n,tile) ∈ c.reduced →
    ∃ lc, tb.coordinators[n]? = some lc ∧ tile ∈ lc.registrations
  reportedOnce : c.reported.Nodup
  sourcesFirst : ∀ (n : ℕ) lc, tb.coordinators[n]? = some lc → lc.targetTile ∈ c.reported →
    ∀ tile ∈ lc.registrations, (n,tile) ∈ c.reduced
  final : ∀ tile ∈ c.reported, c.data tile = some (finalData R tb base tile)
  count : c.tileFinishedCount ≤ tb.tileCount
  setFinished : c.setFinished ≤ 1 ∧ (c.setFinished = 1 → ∀ tile ∈ tiles tb, tile ∈ c.reported)
  noTiles : tb.tileCount = 0 → c.setFinished = 0

/-- All base tiles have been reported, and nothing is left to do. -/
def Done (tb : TiledBitmap Lo) (c : Config α) : Prop :=
  (∀ tile ∈ baseTiles tb, tile ∈ c.reported) ∧ c.tasks = []

structure Finished (R : Reductions Lo α) (tb : TiledBitmap Lo) (base : CompressedTile → α)
    (c : Config α) : Prop where
  reported : ∀ tile ∈ tiles tb, tile ∈ c.reported
  reduced : ∀ (n : ℕ) lc, tb.coordinators[n]? = some lc → ∀ tile ∈ lc.registrations,
    (n,tile) ∈ c.reduced
  data : ∀ tile ∈ tiles tb, c.data tile = some (finalData R tb base tile)
  count : c.tileFinishedCount = tb.tileCount
  setFinished : 0 < tb.tileCount → c.setFinished = 1

theorem Inv.orderly (hs : Stack tb) (hfit : tb.tileCount ≤ MachineInt.intMax) (hi : Inv R tb base c) :
    Orderly R tb base c where
  performs := fun task ht => by
    obtain ⟨d,hd⟩ := hi.perform hs hfit ht
    exact ⟨d,by rw [Cascade.step,if_pos ht,hd]⟩
  initialised := fun n tile h => by
    obtain ⟨lc,hlc,-⟩ := mem_observers.mp (hi.of_task h rfl).2.1
    exact ⟨lc,hlc,hi.initialised n tile (Or.inr h) lc hlc⟩
  reducedOnce := ⟨(List.nodup_append.mp hi.nodup_due).2.1,fun n tile h =>
    mem_observers.mp (hi.of_reduced h).2⟩
  reportedOnce := hi.nodup
  sourcesFirst := fun n lc hlc hr tile ht =>
    mem_sources.mp ((hi.sources_perm hlc ((hi.target n lc hlc).mp hr)).mem_iff.mpr ht)
  final := hi.final
  count := by
    have hle := hi.reported_le hs
    have hc := hi.counted
    omega
  setFinished := by
    rw [hi.setFinished]
    split
    case isTrue h =>
      refine ⟨le_rfl,fun _ => ?_⟩
      have hc := hi.counted
      have ht := hs.tileCount
      have hperm := (List.subperm_of_subset hi.nodup hi.subset).perm_of_length_le (by omega)
      exact fun tile htile => hperm.mem_iff.mpr htile
    case isFalse => exact ⟨by decide,fun h => by cases h⟩
  noTiles := fun h => by
    rw [hi.setFinished,if_neg (by omega)]

theorem Inv.finished (hs : Stack tb) (hi : Inv R tb base c) (hd : Done tb c) :
    Finished R tb base c := by
  have hdue : ∀ n tile, (n,tile) ∈ reductions tb c.reported → (n,tile) ∈ c.reduced :=
    fun n tile h => by simpa [hd.2] using hi.due.mem_iff.mpr h
  have hall : ∀ k : ℕ, ∀ tile ∈ tiles tb, tile.depth.toNat = k → tile ∈ c.reported := by
    intro k
    induction k with
    | zero =>
      intro tile ht hk
      have hpos := hs.depth tile ht
      exact hd.1 tile ((hs.base tile).mpr ⟨ht,by omega⟩)
    | succ k ih =>
      intro tile ht hk
      obtain ⟨lc,hlc,rfl⟩ := hs.complete tile ht (by omega)
      obtain ⟨n,hn⟩ := List.mem_iff_getElem?.mp hlc
      have hsub : lc.registrations ⊆ sources c.reduced n := fun s hsource => by
        obtain ⟨hm,hdepth⟩ := hs.source lc hlc s hsource
        have hpos := hs.depth s hm
        have hr := ih s hm (by omega)
        exact mem_sources.mpr (hdue n s (mem_reductions.mpr ⟨hr,mem_observers.mpr ⟨lc,hn,hsource⟩⟩))
      have hle := (List.subperm_of_subset (hs.registrations lc hlc) hsub).length_le
      have hle' := (hi.sources_subperm hn).length_le
      have hu := hi.unfinished n lc hn
      rw [hd.2,List.countP_nil] at hu
      exact (hi.target n lc hn).mpr (by omega)
  have hrep : ∀ tile ∈ tiles tb, tile ∈ c.reported := fun tile ht => hall _ tile ht rfl
  have hcount : c.tileFinishedCount = tb.tileCount := by
    have hle := (List.subperm_of_subset hs.nodup hrep).length_le
    have hle' := hi.reported_le hs
    have hc := hi.counted
    have ht := hs.tileCount
    rw [hd.2,List.countP_nil] at hc
    omega
  exact {
    reported := hrep
    reduced := fun n lc hlc tile ht => by
      have hm := List.mem_of_getElem? hlc
      exact hdue n tile (mem_reductions.mpr
        ⟨hrep tile (hs.source lc hm tile ht).1,mem_observers.mpr ⟨lc,hlc,ht⟩⟩)
    data := fun tile ht => hi.final tile (hrep tile ht)
    count := hcount
    setFinished := fun hpos => by rw [hi.setFinished,if_pos ⟨hpos,hcount⟩] }

end Cascade
end Scroom
