import Scroom.Cascade
import Scroom.LayerSpec

/-! The cascade with the data of the tiles, which the operations of the layers reduce. -/
namespace Scroom
namespace Cascade
open Transitions TiledBitmap

/-- The bytes of a tile, or undefined. -/
abbrev Data := Option (Σ n, Buffer n)

def bytes (bpp : ℕ) : ℕ := width*height*bpp/8

def initialData (tile : CompressedTile) : Data :=
  some ⟨bytes tile.bpp.toNat,Vector.replicate (bytes tile.bpp.toNat) 0⟩

instance (lo : LayerOperations) : Decidable lo.IndexBits := by
  cases lo <;> unfold LayerOperations.IndexBits <;> infer_instance

/-- The operations are made for a source and a target of these sizes and for this place. -/
def Suits (lo : LayerOperations) (n m : ℕ) (p : ℕ × ℕ) : Prop :=
  lo.IndexBits ∧ n = bytes lo.targetBpp ∧ m = bytes lo.getBpp ∧ p.1 < 8 ∧ p.2 < 8

instance (lo : LayerOperations) (n m : ℕ) (p : ℕ × ℕ) : Decidable (Suits lo n m p) :=
  inferInstanceAs (Decidable (_ ∧ _))

/-- `reduce`, on tiles for which it has no meaning undefined. -/
def reduceBytes (lo : LayerOperations) {n m : ℕ} (source : Buffer m) (p : ℕ × ℕ) (target : Buffer n) :
    Option (Buffer n) :=
  if Suits lo n m p then lo.reduce target source p.1 p.2 else none

def reduceData (lo : LayerOperations) (target source : Data) (p : ℕ × ℕ) : Data :=
  target.bind fun t => source.bind fun s => (reduceBytes lo s.2 p t.2).map (Sigma.mk t.1)

theorem reduceBytes_isSome {lo : LayerOperations} {n m : ℕ} {p : ℕ × ℕ} (h : Suits lo n m p)
    (source : Buffer m) (target : Buffer n) : (reduceBytes lo source p target).isSome := by
  obtain ⟨hb,rfl,rfl,hx,hy⟩ := h
  obtain ⟨_,_,_,hw,-⟩ := LayerOperations.reduce_fills hb hx hy source
  obtain ⟨result,hr,-⟩ := hw target
  rw [reduceBytes,if_pos ⟨hb,rfl,rfl,hx,hy⟩]
  exact Option.isSome_of_eq_some hr

theorem reduceBytes_comm {lo : LayerOperations} {n m m' : ℕ} {p p' : ℕ × ℕ} (hne : p ≠ p')
    (source : Buffer m) (source' : Buffer m') (target : Buffer n) :
    (reduceBytes lo source p target).bind (reduceBytes lo source' p') =
      (reduceBytes lo source' p' target).bind (reduceBytes lo source p) := by
  by_cases h : Suits lo n m p
  · by_cases h' : Suits lo n m' p'
    · obtain ⟨hb,rfl,rfl,hx,hy⟩ := h
      obtain ⟨-,-,rfl,hx',hy'⟩ := h'
      obtain ⟨_,_,hf⟩ := LayerOperations.reduce_fills hb hx hy source
      obtain ⟨_,_,hf'⟩ := LayerOperations.reduce_fills hb hx' hy' source'
      have hs : ∀ (s : Buffer (bytes lo.getBpp)) (q : ℕ × ℕ), q.1 < 8 → q.2 < 8 →
          reduceBytes lo s q = fun t : Buffer (bytes lo.targetBpp) => lo.reduce t s q.1 q.2 :=
        fun s q hq hq' => funext fun t => if_pos ⟨hb,rfl,rfl,hq,hq'⟩
      rw [hs source p hx hy,hs source' p' hx' hy']
      exact hf.comm hf' hne target
    · have hn : ∀ t : Buffer n, reduceBytes lo source' p' t = none := fun t => if_neg h'
      cases reduceBytes lo source p target <;> simp [hn]
  · have hn : ∀ t : Buffer n, reduceBytes lo source p t = none := fun t => if_neg h
    cases reduceBytes lo source' p' target <;> simp [hn]

@[simp] theorem reduceData_none (lo : LayerOperations) (source : Data) (p : ℕ × ℕ) :
    reduceData lo none source p = none := rfl

@[simp] theorem reduceData_source_none (lo : LayerOperations) (target : Data) (p : ℕ × ℕ) :
    reduceData lo target none p = none := by
  cases target <;> rfl

theorem reduceData_some (lo : LayerOperations) (t s : Σ n, Buffer n) (p : ℕ × ℕ) :
    reduceData lo (some t) (some s) p = (reduceBytes lo s.2 p t.2).map (Sigma.mk t.1) := rfl

theorem reduceData_twice (lo : LayerOperations) (t s s' : Σ n, Buffer n) (p p' : ℕ × ℕ) :
    reduceData lo (reduceData lo (some t) (some s) p) (some s') p' =
      ((reduceBytes lo s.2 p t.2).bind (reduceBytes lo s'.2 p')).map (Sigma.mk t.1) := by
  rw [reduceData_some]
  cases reduceBytes lo s.2 p t.2 with
  | none => simp only [Option.map_none,reduceData_none,Option.bind_none]
  | some r => simp only [Option.map_some,reduceData_some,Option.bind_some]

theorem reduceData_comm (lo : LayerOperations) (target source source' : Data) {p p' : ℕ × ℕ}
    (hne : p ≠ p') : reduceData lo (reduceData lo target source p) source' p' =
      reduceData lo (reduceData lo target source' p') source p := by
  cases target with
  | none => simp only [reduceData_none]
  | some t =>
    cases source with
    | none => simp only [reduceData_source_none,reduceData_none]
    | some s =>
      cases source' with
      | none => simp only [reduceData_source_none,reduceData_none]
      | some s' => rw [reduceData_twice,reduceData_twice,reduceBytes_comm hne]

def layerReductions : Reductions LayerOperations Data where
  initialData := initialData
  reduce := reduceData
  comm := fun lo target source source' _ _ hne => reduceData_comm lo target source source' hne

/-- The bits per pixel of a layer, from its operations. -/
def getBpp (lo : LayerOperations) : ℤ := lo.getBpp

/-! ### Layers that fit -/

/-- The data is defined and has the size of the tile. -/
def Sized (tile : CompressedTile) (data : Data) : Prop :=
  ∃ b : Buffer (bytes tile.bpp.toNat), data = some ⟨_,b⟩

/-- A coordinator reduces with the operations of the source layer, which the operations of the
target layer follow. -/
theorem suits_of_chain {tb : TiledBitmap LayerOperations} (hw : Wired getBpp tb) (hc : Chain tb.ls)
    {lc : LayerCoordinator LayerOperations} (hlc : lc ∈ tb.coordinators) {tile : CompressedTile}
    (ht : tile ∈ lc.registrations) : Suits lc.lo (bytes lc.targetTile.bpp.toNat) (bytes tile.bpp.toNat)
      ((lc.sourceTiles.lookup tile).getD (0,0)) := by
  obtain ⟨k,l,l',lo,hl,hl',hlo,I,-,J,-,hcol⟩ := hw.sound lc hlc
  obtain ⟨i,-,j,-,-,-,rfl⟩ := (hcol.mem tile).mp ht
  obtain ⟨source,hsource,hbpp⟩ := hw.bpp k l hl
  obtain ⟨next,hnext,hbpp'⟩ := hw.bpp (k+1) l' hl'
  cases hlo.symm.trans hsource
  have hf := hc.follows hlo hnext
  have htarget : lc.targetTile.bpp = next.getBpp := by
    rw [hcol.targetTile]
    exact hbpp'
  have hplace : (lc.sourceTiles.lookup (l.tileAt i j)).getD (0,0) = (i%8,j%8) := by
    rw [hcol.offset i j ht,Option.getD_some]
  have hsourceBpp : (l.tileAt i j).bpp = lo.getBpp := hbpp
  rw [hcol.lo,hplace,htarget,hsourceBpp,hf.getBpp]
  exact ⟨hf.indexBits.1,rfl,rfl,Nat.mod_lt _ (by decide),Nat.mod_lt _ (by decide)⟩

theorem result_sized {lc : LayerCoordinator LayerOperations} {final : CompressedTile → Data}
    (l : List CompressedTile) (h : ∀ tile ∈ l, Sized tile (final tile) ∧
      Suits lc.lo (bytes lc.targetTile.bpp.toNat) (bytes tile.bpp.toNat)
        ((lc.sourceTiles.lookup tile).getD (0,0))) :
    Sized lc.targetTile (result layerReductions final lc l) := by
  induction l using List.reverseRecOn with
  | nil => exact ⟨_,rfl⟩
  | append_singleton l tile ih =>
    obtain ⟨target,ht⟩ := ih fun t hm => h t (List.mem_append_left _ hm)
    obtain ⟨⟨source,hsource⟩,hsuits⟩ := h tile (by simp)
    obtain ⟨b,hb⟩ := Option.isSome_iff_exists.mp (reduceBytes_isSome hsuits source target)
    refine ⟨b,?_⟩
    rw [result_snoc,ht,hsource]
    exact (reduceData_some _ _ _ _).trans (by rw [hb]; rfl)

/-- With layer operations that follow each other no reduction is undefined. -/
theorem finalData_sized {w h : ℤ} {ls : LayerSpec} {tb : TiledBitmap LayerOperations}
    (ht : create getBpp w h ls = some tb) (hc : Chain ls) {base : CompressedTile → Data}
    (hb : ∀ tile ∈ baseTiles tb, Sized tile (base tile)) :
    ∀ tile ∈ tiles tb, Sized tile (finalData layerReductions tb base tile) := by
  obtain ⟨hw,-,rfl,-⟩ := wired_of_create ht
  have hs := stack_of_wired hw
  have hall : ∀ k : ℕ, ∀ tile ∈ tiles tb, tile.depth.toNat = k →
      Sized tile (finalData layerReductions tb base tile) := by
    intro k
    induction k with
    | zero =>
      intro tile hm hk
      have hpos := hs.depth tile hm
      have hbase := (hs.base tile).mpr ⟨hm,by omega⟩
      rw [hs.finalData_base hbase]
      exact hb tile hbase
    | succ k ih =>
      intro tile hm hk
      obtain ⟨lc,hlc,rfl⟩ := hs.complete tile hm (by omega)
      rw [hs.finalData_target hlc]
      refine result_sized _ fun t hreg => ⟨?_,suits_of_chain hw hc hlc hreg⟩
      obtain ⟨htile,hdepth⟩ := hs.source lc hlc t hreg
      have hpos := hs.depth t htile
      exact ih t htile (by omega)
  exact fun tile hm => hall _ tile hm rfl

/-! ### The cascade -/

/-- Whatever the order in which base tiles are reported and tasks performed, each source is
reduced once and each target reported once, when all its sources are in it, and the data that
the tiles end up with does not depend on the order. When nothing is left to do, all tiles are
finished, and unless there are none `setFinished` was sent, once. The number of tiles must fit an `int`. -/
theorem cascade_finishes {w h : ℤ} {ls : LayerSpec} {tb : TiledBitmap LayerOperations}
    (ht : create getBpp w h ls = some tb) (hfit : tb.tileCount ≤ MachineInt.intMax) (base : CompressedTile → Data)
    {as : List Action} {c : Config Data} (hr : run (step layerReductions tb) as (initial tb base) = some c) :
    Orderly layerReductions tb base c ∧ (Done tb c → Finished layerReductions tb base c) := by
  have hs := stack_of_wired (wired_of_create ht).1
  have hi := inv_run hs hr
  exact ⟨hi.orderly hs hfit,hi.finished hs⟩

instance (tb : TiledBitmap LayerOperations) (c : Config Data) : Decidable (Done tb c) :=
  inferInstanceAs (Decidable (_ ∧ _))

/-- What happens with a base tile under the only coordinator, from its report on. -/
def reduction (tile : CompressedTile) : List Action :=
  [.reportFinished tile,.perform (.notifyBitmap tile),.perform (.notifyCoordinator 0 tile),
    .perform (.initialize_ 0 tile),.perform (.getTile 0 tile),.perform (.reduce 0 tile),
    .perform (.finish 0 tile)]

/-- Three base tiles under one target, the last one first. -/
theorem cascade_finishes_threeTiles :
    let tb := (create getBpp 8200 1 [.operations24bpp]).get (by decide +kernel)
    let c := (run (step layerReductions tb) (reduction ⟨0,2,0,24⟩++reduction ⟨0,0,0,24⟩++
      reduction ⟨0,1,0,24⟩++[.perform (.notifyBitmap ⟨1,0,0,24⟩)])
        (initial tb initialData)).get (by decide +kernel)
    c.tileFinishedCount = 4 ∧ Finished layerReductions tb initialData c :=
  ⟨by decide +kernel,(cascade_finishes (Option.some_get _).symm (by decide +kernel) initialData
    (Option.some_get _).symm).2 (by decide +kernel)⟩

/-- A bitmap without tiles is never reported finished. -/
theorem noTiles_neverFinished : ¬ ∀ (w h : ℤ) (ls : LayerSpec) (tb : TiledBitmap LayerOperations)
    (base : CompressedTile → Data) (as : List Action) (c : Config Data),
    create getBpp w h ls = some tb → run (step layerReductions tb) as (initial tb base) = some c →
      Done tb c → c.setFinished = 1 := by
  intro h
  have hz := h 0 10000 [.operations24bpp]
    ((create getBpp 0 10000 [.operations24bpp]).get (by decide +kernel)) initialData [] _
    (Option.some_get _).symm rfl (by decide +kernel)
  cases hz

end Cascade
end Scroom
