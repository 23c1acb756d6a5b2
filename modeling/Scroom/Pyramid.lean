import Scroom.Layer
import Scroom.Loops

/-! The layers that construction stacks on a bitmap, and the wiring between their tiles:
each tile has one coordinator, and a coordinator collects a block of at most 8 by 8 tiles. -/
namespace Scroom
namespace TiledBitmap
open Layer

variable {Lo : Type}

/-- The dimensions of a layer, from those of the layer below. -/
structure Above (layer prevLayer : Layer) : Prop where
  width : layer.width = (prevLayer.width+7).tdiv 8
  height : layer.height = (prevLayer.height+7).tdiv 8

theorem tileCount_eighth {w : ℤ} {i : ℕ} :
    i < (((w+7).tdiv 8+(tileSize-1)).tdiv tileSize).toNat ↔
      8*i < ((w+(tileSize-1)).tdiv tileSize).toNat := by
  have ht : (0:ℤ) < tileSize := by decide
  have h := MachineInt.lt_tdiv_iff (n := (w+7).tdiv 8) (c := i) ht
  have hh := MachineInt.lt_tdiv_iff (n := w) (c := i*4096) (show (0:ℤ) < 8 by decide)
  have hs := MachineInt.lt_tdiv_iff (n := w) (c := 8*i) ht
  simp only [tileSize] at *
  push_cast at *
  omega

theorem Above.lt_horTileCount {l p : Layer} (h : Above l p) (i : ℕ) :
    i < l.horTileCount.toNat ↔ 8*i < p.horTileCount.toNat := by
  simp only [horTileCount,h.width]
  exact tileCount_eighth

theorem Above.lt_verTileCount {l p : Layer} (h : Above l p) (j : ℕ) :
    j < l.verTileCount.toNat ↔ 8*j < p.verTileCount.toNat := by
  simp only [verTileCount,h.height]
  exact tileCount_eighth

theorem row_div {n I J : ℕ} (h : I < n) : (J*n+I)/n = J := by
  rw [Nat.mul_comm,Nat.mul_add_div (by omega),Nat.div_eq_of_lt h,Nat.add_zero]

theorem newLine_eq (lo : Lo) (tl : List CompressedTile) (w : Wiring Lo) :
    newLine lo tl w = ⟨w.coordinators ++ tl.map (LayerCoordinator.create · lo),
      List.range' w.coordinators.length tl.length⟩ := by
  have h : ∀ (tl : List CompressedTile) (w : Wiring Lo),
      tl.foldl (fun w z => ⟨w.coordinators ++ [LayerCoordinator.create z lo],w.row ++ [w.coordinators.length]⟩) w =
        (⟨w.coordinators ++ tl.map (LayerCoordinator.create · lo),
          w.row ++ List.range' w.coordinators.length tl.length⟩ : Wiring Lo) := by
    intro tl
    induction tl with
    | nil => simp
    | cons z tl ih =>
      intro w
      simp [ih,List.range'_succ]
  simp [newLine,h]

/-- The tiles visited when `j` lines are done and `i` tiles of the next one. -/
def visited (horTileCount j i : ℕ) : List (ℕ × ℕ) :=
  ((List.range j).flatMap fun j' => (List.range horTileCount).map (·,j')) ++ (List.range i).map (·,j)

theorem visited_line (n j : ℕ) : visited n (j+1) 0 = visited n j n := by
  simp [visited,List.range_succ]

theorem visited_tile (n j i : ℕ) : visited n j (i+1) = visited n j i ++ [(i,j)] := by
  simp [visited,List.range_succ]

theorem mem_visited {n j i : ℕ} {p : ℕ × ℕ} :
    p ∈ visited n j i ↔ (p.2 < j ∧ p.1 < n) ∨ (p.2 = j ∧ p.1 < i) := by
  obtain ⟨a,b⟩ := p
  simp [visited,and_comm,eq_comm]

theorem nodup_visited (n j i : ℕ) : (visited n j i).Nodup := by
  refine List.Nodup.append ?_ (List.nodup_range.map fun a b h => congrArg Prod.fst h) ?_
  · refine List.nodup_flatMap.mpr ⟨fun j' _ => List.nodup_range.map fun a b h => congrArg Prod.fst h,?_⟩
    refine List.nodup_range.imp fun h => ?_
    simp only [Function.onFun,List.disjoint_left,List.mem_map]
    rintro p ⟨a,_,rfl⟩ ⟨b,_,hb⟩
    exact h (congrArg Prod.snd hb).symm
  · intro p hp hq
    simp only [List.mem_flatMap,List.mem_range,List.mem_map] at hp hq
    obtain ⟨j',hj,_,_,rfl⟩ := hp
    obtain ⟨_,_,he⟩ := hq
    simp only [Prod.mk.injEq] at he
    omega

/-- The place in the list of new coordinators of the one that takes a tile. -/
def place (layer : Layer) (p : ℕ × ℕ) : ℕ := p.2/8*layer.horTileCount.toNat+p.1/8

/-- Register some tiles of a layer with a coordinator, in order. -/
def attach (prevLayer : Layer) (ps : List (ℕ × ℕ)) (lc : LayerCoordinator Lo) : LayerCoordinator Lo :=
  ps.foldl (fun lc p => lc.addSourceTile (p.1%8) (p.2%8) (prevLayer.tileAt p.1 p.2)) lc

/-- The coordinator with number `n` when the tiles `ps` have been registered. -/
def coordinator (layer prevLayer : Layer) (lo : Lo) (ps : List (ℕ × ℕ)) (n : ℕ) : LayerCoordinator Lo :=
  attach prevLayer (ps.filter fun p => place layer p = n)
    (.create (layer.tileAt (n%layer.horTileCount.toNat) (n/layer.horTileCount.toNat)) lo)

section Connect
variable {layer prevLayer : Layer} {lo : Lo} {cs : List (LayerCoordinator Lo)}

def opened (layer prevLayer : Layer) (lo : Lo) (cs : List (LayerCoordinator Lo)) (rows : ℕ)
    (ps : List (ℕ × ℕ)) : List (LayerCoordinator Lo) :=
  cs ++ (List.range (rows*layer.horTileCount.toNat)).map (coordinator layer prevLayer lo ps)

theorem length_opened (rows : ℕ) (ps : List (ℕ × ℕ)) :
    (opened layer prevLayer lo cs rows ps).length = cs.length+rows*layer.horTileCount.toNat := by
  simp [opened]

theorem coordinator_snoc (ps : List (ℕ × ℕ)) (p : ℕ × ℕ) (n : ℕ) :
    coordinator layer prevLayer lo (ps ++ [p]) n =
      if place layer p = n then
        (coordinator layer prevLayer lo ps n).addSourceTile (p.1%8) (p.2%8) (prevLayer.tileAt p.1 p.2)
      else coordinator layer prevLayer lo ps n := by
  by_cases h : place layer p = n
  · simp [coordinator,attach,List.filter_append,h]
  · simp [coordinator,attach,List.filter_append,h]

theorem opened_modify {rows : ℕ} {ps : List (ℕ × ℕ)} {p : ℕ × ℕ} :
    (opened layer prevLayer lo cs rows ps).modify (cs.length+place layer p)
        (LayerCoordinator.addSourceTile (p.1%8) (p.2%8) (prevLayer.tileAt p.1 p.2)) =
      opened layer prevLayer lo cs rows (ps ++ [p]) := by
  refine List.ext_getElem? fun n => ?_
  simp only [opened,List.getElem?_modify]
  rcases lt_or_ge n cs.length with hn | hn
  · have h : cs.length+place layer p ≠ n := by omega
    simp [h,List.getElem?_append_left hn]
  · rw [List.getElem?_append_right hn,List.getElem?_append_right hn,List.getElem?_map,List.getElem?_map]
    have h : cs.length+place layer p = n ↔ place layer p = n-cs.length := by omega
    by_cases hr : n-cs.length < rows*layer.horTileCount.toNat
    · simp only [List.getElem?_range hr,Option.map_some,coordinator_snoc,h]
      split_ifs <;> rfl
    · have hr' : (List.range (rows*layer.horTileCount.toNat))[n-cs.length]? = none :=
        List.getElem?_eq_none (by simpa using hr)
      simp [hr']

theorem opened_succ {j : ℕ} (h : Above layer prevLayer) (hj : j%8 = 0) :
    opened layer prevLayer lo cs (j/8) (visited prevLayer.horTileCount.toNat j 0) ++
        (layer.tileLine (j/8)).map (LayerCoordinator.create · lo) =
      opened layer prevLayer lo cs (j/8+1) (visited prevLayer.horTileCount.toNat j 0) := by
  simp only [opened,Nat.succ_mul,List.range_add,List.map_append,List.append_assoc,List.map_map,tileLine]
  congr 2
  refine List.map_congr_left fun n hn => ?_
  have hn' : n < layer.horTileCount.toNat := List.mem_range.mp hn
  have hp : ∀ p ∈ visited prevLayer.horTileCount.toNat j 0,
      place layer p ≠ j/8*layer.horTileCount.toNat+n := by
    intro p hp
    have hv : p.2 < j ∧ p.1 < prevLayer.horTileCount.toNat := by
      rcases mem_visited.mp hp with hv | hv
      · exact hv
      · omega
    have hb : p.2/8+1 ≤ j/8 := by omega
    have hl : p.1/8 < layer.horTileCount.toNat := (h.lt_horTileCount _).mpr (by omega)
    have hm := Nat.mul_le_mul_right layer.horTileCount.toNat hb
    rw [Nat.succ_mul] at hm
    unfold place
    omega
  have hf : (visited prevLayer.horTileCount.toNat j 0).filter
      (fun p => place layer p = j/8*layer.horTileCount.toNat+n) = [] := by
    simpa [List.filter_eq_nil_iff] using hp
  simp [coordinator,hf,attach,row_div hn',Nat.mul_add_mod_of_lt hn']

theorem connectTile_eq {j i : ℕ} (h : Above layer prevLayer) (hj : j < prevLayer.verTileCount.toNat)
    (hi : i < prevLayer.horTileCount.toNat) :
    connectTile prevLayer j
        (⟨opened layer prevLayer lo cs (j/8+1) (visited prevLayer.horTileCount.toNat j i),
          List.range' (cs.length+j/8*layer.horTileCount.toNat) layer.horTileCount.toNat⟩ : Wiring Lo) i =
      some ⟨opened layer prevLayer lo cs (j/8+1) (visited prevLayer.horTileCount.toNat j (i+1)),
        List.range' (cs.length+j/8*layer.horTileCount.toNat) layer.horTileCount.toNat⟩ := by
  have hl : i/8 < layer.horTileCount.toNat := (h.lt_horTileCount _).mpr (by omega)
  have hr : (List.range' (cs.length+j/8*layer.horTileCount.toNat) layer.horTileCount.toNat)[i/8]? =
      some (cs.length+place layer (i,j)) := by
    simp [hl,place,Nat.add_assoc]
  simp only [connectTile,hr,Option.map_some,getTile_of_lt hi hj,visited_tile]
  rw [← opened_modify]

theorem connectLine_eq {j : ℕ} (h : Above layer prevLayer) (hj : j < prevLayer.verTileCount.toNat)
    {row : List ℕ} (hrow : j%8 ≠ 0 →
      row = List.range' (cs.length+j/8*layer.horTileCount.toNat) layer.horTileCount.toNat) :
    connectLine layer prevLayer lo
        ⟨opened layer prevLayer lo cs ((j+7)/8) (visited prevLayer.horTileCount.toNat j 0),row⟩ j =
      some ⟨opened layer prevLayer lo cs (j/8+1) (visited prevLayer.horTileCount.toNat (j+1) 0),
        List.range' (cs.length+j/8*layer.horTileCount.toNat) layer.horTileCount.toNat⟩ := by
  have hl : j/8 < layer.verTileCount.toNat := (h.lt_verTileCount _).mpr (by omega)
  have hline : (if j%8 = 0 then newLine lo (layer.getTileLine ((j/8 : ℕ) : ℤ))
        ⟨opened layer prevLayer lo cs ((j+7)/8) (visited prevLayer.horTileCount.toNat j 0),row⟩
      else ⟨opened layer prevLayer lo cs ((j+7)/8) (visited prevLayer.horTileCount.toNat j 0),row⟩) =
      (⟨opened layer prevLayer lo cs (j/8+1) (visited prevLayer.horTileCount.toNat j 0),
        List.range' (cs.length+j/8*layer.horTileCount.toNat) layer.horTileCount.toNat⟩ : Wiring Lo) := by
    split
    · rename_i hz
      have hh : (j+7)/8 = j/8 := by omega
      rw [newLine_eq,hh,getTileLine_of_lt hl,opened_succ h hz,length_opened,length_tileLine]
    · rename_i hz
      have hh : (j+7)/8 = j/8+1 := by omega
      rw [hh,hrow hz]
  simp only [connectLine,hline]
  obtain ⟨w,hw,rfl⟩ := Loops.foldlM_range (f := connectTile prevLayer j)
    (I := fun i w => w =
      (⟨opened layer prevLayer lo cs (j/8+1) (visited prevLayer.horTileCount.toNat j i),
        List.range' (cs.length+j/8*layer.horTileCount.toNat) layer.horTileCount.toNat⟩ : Wiring Lo))
    rfl (fun i hi w hw => ⟨_,hw ▸ connectTile_eq h hj hi,rfl⟩)
  rw [hw,visited_line]

theorem connect_eq (h : Above layer prevLayer) : connect layer prevLayer lo cs =
    some (opened layer prevLayer lo cs layer.verTileCount.toNat
      (visited prevLayer.horTileCount.toNat prevLayer.verTileCount.toNat 0)) := by
  obtain ⟨w,hw,hc,-⟩ := Loops.foldlM_range (f := connectLine layer prevLayer lo)
    (n := prevLayer.verTileCount.toNat) (s := ⟨cs,[]⟩)
    (I := fun j w =>
      w.coordinators = opened layer prevLayer lo cs ((j+7)/8) (visited prevLayer.horTileCount.toNat j 0) ∧
        (j%8 ≠ 0 → w.row = List.range' (cs.length+j/8*layer.horTileCount.toNat) layer.horTileCount.toNat))
    (by simp [opened])
    (by
      rintro j hj ⟨coordinators,row⟩ ⟨rfl,hrow⟩
      refine ⟨_,connectLine_eq h hj hrow,?_,fun hm => ?_⟩
      · have hh : (j+1+7)/8 = j/8+1 := by omega
        rw [hh]
      · have hh : (j+1)/8 = j/8 := by omega
        rw [hh])
  have hv : (prevLayer.verTileCount.toNat+7)/8 = layer.verTileCount.toNat := by
    have h₁ := h.lt_verTileCount ((prevLayer.verTileCount.toNat+7)/8)
    have h₂ := h.lt_verTileCount ((prevLayer.verTileCount.toNat+7)/8-1)
    omega
  simp only [connect,hw,Option.map_some,hc,hv]

theorem mem_opened {rows : ℕ} {ps : List (ℕ × ℕ)} {lc : LayerCoordinator Lo} :
    lc ∈ opened layer prevLayer lo cs rows ps ↔ lc ∈ cs ∨
      ∃ I < layer.horTileCount.toNat, ∃ J < rows,
        lc = coordinator layer prevLayer lo ps (J*layer.horTileCount.toNat+I) := by
  simp only [opened,List.mem_append,List.mem_map,List.mem_range]
  refine or_congr Iff.rfl ⟨?_,?_⟩
  · rintro ⟨n,hn,rfl⟩
    have h : 0 < layer.horTileCount.toNat := Nat.pos_of_mul_pos_left (by omega : 0 < rows*_)
    exact ⟨n%_,Nat.mod_lt _ h,n/_,Nat.div_lt_of_lt_mul (by rwa [Nat.mul_comm]),by rw [Nat.div_add_mod']⟩
  · rintro ⟨I,hI,J,hJ,rfl⟩
    have h := Nat.mul_le_mul_right layer.horTileCount.toNat hJ
    rw [Nat.succ_mul] at h
    exact ⟨_,by omega,rfl⟩

end Connect

/-- The block of tiles that a coordinator collects, and what it knows about them. -/
structure Collects (layer prevLayer : Layer) (lo : Lo) (I J : ℕ) (lc : LayerCoordinator Lo) : Prop where
  targetTile : lc.targetTile = layer.tileAt I J
  lo : lc.lo = lo
  nodup : lc.registrations.Nodup
  mem : ∀ t, t ∈ lc.registrations ↔ ∃ i < prevLayer.horTileCount.toNat,
    ∃ j < prevLayer.verTileCount.toNat, i/8 = I ∧ j/8 = J ∧ t = prevLayer.tileAt i j
  offset : ∀ i j, prevLayer.tileAt i j ∈ lc.registrations →
    lc.sourceTiles.lookup (prevLayer.tileAt i j) = some (i%8,j%8)
  unfinished : lc.unfinishedSourceTiles = lc.registrations.length

theorem attach_registrations (l : Layer) (ps : List (ℕ × ℕ)) (lc : LayerCoordinator Lo) :
    (attach l ps lc).registrations = lc.registrations ++ ps.map fun p => l.tileAt p.1 p.2 := by
  induction ps generalizing lc with
  | nil => simp [attach]
  | cons p ps ih =>
    have h := ih (lc.addSourceTile (p.1%8) (p.2%8) (l.tileAt p.1 p.2))
    simpa [attach,LayerCoordinator.addSourceTile] using h

theorem attach_unfinished (l : Layer) (ps : List (ℕ × ℕ)) (lc : LayerCoordinator Lo) :
    (attach l ps lc).unfinishedSourceTiles = lc.unfinishedSourceTiles+ps.length := by
  induction ps generalizing lc with
  | nil => simp [attach]
  | cons p ps ih =>
    have h := ih (lc.addSourceTile (p.1%8) (p.2%8) (l.tileAt p.1 p.2))
    simp only [attach,LayerCoordinator.addSourceTile,List.foldl_cons,List.length_cons] at h ⊢
    rw [h]
    push_cast
    ring

theorem attach_constants (l : Layer) (ps : List (ℕ × ℕ)) (lc : LayerCoordinator Lo) :
    (attach l ps lc).targetTile = lc.targetTile ∧ (attach l ps lc).lo = lc.lo := by
  induction ps generalizing lc with
  | nil => simp [attach]
  | cons p ps ih => exact ih (lc.addSourceTile (p.1%8) (p.2%8) (l.tileAt p.1 p.2))

/-- The place stored with a tile depends on the tile only, so overwriting does no harm. -/
theorem attach_lookup (l : Layer) (ps : List (ℕ × ℕ)) (lc : LayerCoordinator Lo) (p : ℕ × ℕ)
    (hp : p ∈ ps ∨ lc.sourceTiles.lookup (l.tileAt p.1 p.2) = some (p.1%8,p.2%8)) :
    (attach l ps lc).sourceTiles.lookup (l.tileAt p.1 p.2) = some (p.1%8,p.2%8) := by
  induction ps generalizing lc with
  | nil => simpa [attach] using hp
  | cons q ps ih =>
    refine ih (lc.addSourceTile (q.1%8) (q.2%8) (l.tileAt q.1 q.2)) ?_
    simp only [LayerCoordinator.addSourceTile]
    by_cases hq : p = q
    · subst hq
      exact Or.inr (AList.lookup_insert _)
    · have hne : l.tileAt p.1 p.2 ≠ l.tileAt q.1 q.2 := fun h => hq (Prod.ext_iff.mpr (tileAt_inj.mp h))
      rw [AList.lookup_insert_ne hne]
      simpa [hq] using hp

theorem coordinator_targetTile (layer prevLayer : Layer) (lo : Lo) (ps : List (ℕ × ℕ)) (n : ℕ) :
    (coordinator layer prevLayer lo ps n).targetTile =
      layer.tileAt (n%layer.horTileCount.toNat) (n/layer.horTileCount.toNat) :=
  (attach_constants _ _ _).1

theorem targets_opened {layer prevLayer : Layer} {lo : Lo} {cs : List (LayerCoordinator Lo)} {rows : ℕ}
    {ps : List (ℕ × ℕ)} (h : (cs.map LayerCoordinator.targetTile).Nodup)
    (hcs : ∀ lc ∈ cs, lc.targetTile.depth ≠ layer.depth) :
    ((opened layer prevLayer lo cs rows ps).map LayerCoordinator.targetTile).Nodup := by
  simp only [opened,List.map_append,List.map_map]
  refine h.append ?_ ?_
  · refine List.nodup_range.map_on fun n _ m _ hnm => ?_
    simp only [Function.comp,coordinator_targetTile,tileAt_inj] at hnm
    rw [← Nat.div_add_mod' n layer.horTileCount.toNat,← Nat.div_add_mod' m layer.horTileCount.toNat,
      hnm.1,hnm.2]
  · intro t ht ht'
    obtain ⟨lc,hlc,rfl⟩ := List.mem_map.mp ht
    obtain ⟨n,_,hn⟩ := List.mem_map.mp ht'
    simp only [Function.comp,coordinator_targetTile] at hn
    exact hcs lc hlc (by rw [← hn]; rfl)

theorem coordinator_collects {layer prevLayer : Layer} (h : Above layer prevLayer) (lo : Lo) {I J : ℕ}
    (hI : I < layer.horTileCount.toNat) :
    Collects layer prevLayer lo I J (coordinator layer prevLayer lo
      (visited prevLayer.horTileCount.toNat prevLayer.verTileCount.toNat 0)
      (J*layer.horTileCount.toNat+I)) := by
  have hmem : ∀ p : ℕ × ℕ, p ∈ (visited prevLayer.horTileCount.toNat prevLayer.verTileCount.toNat 0).filter
      (fun p => place layer p = J*layer.horTileCount.toNat+I) ↔
      p.1 < prevLayer.horTileCount.toNat ∧ p.2 < prevLayer.verTileCount.toNat ∧ p.1/8 = I ∧ p.2/8 = J := by
    intro p
    simp only [List.mem_filter,mem_visited,decide_eq_true_eq,not_lt_zero,and_false,or_false]
    constructor
    · rintro ⟨⟨hj,hi⟩,hp⟩
      have hl : p.1/8 < layer.horTileCount.toNat := (h.lt_horTileCount _).mpr (by omega)
      have hm := Nat.mul_add_mod_of_lt (a := p.2/8) hl
      have hd := row_div (J := p.2/8) hl
      unfold place at hp
      rw [hp] at hm hd
      exact ⟨hi,hj,hm.symm.trans (Nat.mul_add_mod_of_lt hI),hd.symm.trans (row_div hI)⟩
    · rintro ⟨hi,hj,rfl,rfl⟩
      exact ⟨⟨hj,hi⟩,rfl⟩
  obtain ⟨ht,hlo⟩ := attach_constants prevLayer
    ((visited prevLayer.horTileCount.toNat prevLayer.verTileCount.toNat 0).filter
      (fun p => place layer p = J*layer.horTileCount.toNat+I)) (.create (layer.tileAt I J) lo)
  simp only [coordinator,row_div hI,Nat.mul_add_mod_of_lt hI]
  refine ⟨ht,hlo,?_,fun t => ?_,fun i j hij => ?_,?_⟩
  · rw [attach_registrations]
    refine List.Nodup.map (fun p q hpq => ?_) ((nodup_visited _ _ _).filter _)
    exact Prod.ext_iff.mpr (tileAt_inj.mp hpq)
  · simp only [attach_registrations,LayerCoordinator.create,List.nil_append,List.mem_map,hmem]
    constructor
    · rintro ⟨p,⟨hi,hj,hI,hJ⟩,rfl⟩
      exact ⟨_,hi,_,hj,hI,hJ,rfl⟩
    · rintro ⟨i,hi,j,hj,hI,hJ,rfl⟩
      exact ⟨(i,j),⟨hi,hj,hI,hJ⟩,rfl⟩
  · refine attach_lookup prevLayer _ _ (i,j) (Or.inl ?_)
    simp only [attach_registrations,LayerCoordinator.create,List.nil_append,List.mem_map] at hij
    obtain ⟨p,hp,he⟩ := hij
    obtain ⟨rfl,rfl⟩ := tileAt_inj.mp he
    exact hp
  · rw [attach_unfinished,attach_registrations]
    simp [LayerCoordinator.create]

theorem Collects.length {layer prevLayer : Layer} {lo : Lo} {I J : ℕ} {lc : LayerCoordinator Lo}
    (h : Collects layer prevLayer lo I J lc) (ha : Above layer prevLayer)
    (hI : I < layer.horTileCount.toNat) (hJ : J < layer.verTileCount.toNat) :
    1 ≤ lc.registrations.length ∧ lc.registrations.length ≤ 64 := by
  constructor
  · have hm : prevLayer.tileAt (8*I) (8*J) ∈ lc.registrations :=
      (h.mem _).mpr ⟨8*I,(ha.lt_horTileCount I).mp hI,8*J,(ha.lt_verTileCount J).mp hJ,
        by omega,by omega,rfl⟩
    exact List.length_pos_of_mem hm
  · have hs : lc.registrations ⊆
        (List.range 8 ×ˢ List.range 8).map fun p => prevLayer.tileAt (8*I+p.1) (8*J+p.2) := by
      intro t ht
      obtain ⟨i,_,j,_,hi,hj,rfl⟩ := (h.mem t).mp ht
      refine List.mem_map.mpr ⟨(i%8,j%8),?_,?_⟩
      · exact List.mem_product.mpr ⟨List.mem_range.mpr (by omega),List.mem_range.mpr (by omega)⟩
      · exact tileAt_inj.mpr ⟨by omega,by omega⟩
    exact (List.subperm_of_subset h.nodup hs).length_le.trans (by simp [List.length_product])

theorem Collects.offset_inj {layer prevLayer : Layer} {lo : Lo} {I J : ℕ} {lc : LayerCoordinator Lo}
    (h : Collects layer prevLayer lo I J lc) {t t' : CompressedTile} (ht : t ∈ lc.registrations)
    (ht' : t' ∈ lc.registrations) (hl : lc.sourceTiles.lookup t = lc.sourceTiles.lookup t') : t = t' := by
  obtain ⟨i,_,j,_,hi,hj,rfl⟩ := (h.mem t).mp ht
  obtain ⟨i',_,j',_,hi',hj',rfl⟩ := (h.mem t').mp ht'
  rw [h.offset i j ht,h.offset i' j' ht'] at hl
  have he := Prod.ext_iff.mp (Option.some.inj hl)
  exact tileAt_inj.mpr ⟨by omega,by omega⟩

/-- What `initialize` keeps of the stack it has built so far. -/
structure Wired (getBpp : Lo → ℤ) (tb : TiledBitmap Lo) : Prop where
  depth : ∀ (k : ℕ) l, tb.layers[k]? = some l → l.depth = k
  bpp : ∀ (k : ℕ) l, tb.layers[k]? = some l → ∃ lo,
    tb.ls[min k (tb.ls.length-1)]? = some lo ∧ l.bpp = getBpp lo
  above : ∀ (k : ℕ) l l', tb.layers[k]? = some l → tb.layers[k+1]? = some l' → Above l' l
  sound : ∀ lc ∈ tb.coordinators, ∃ (k : ℕ) (l l' : Layer) (lo : Lo),
    tb.layers[k]? = some l ∧ tb.layers[k+1]? = some l' ∧
      tb.ls[min k (tb.ls.length-1)]? = some lo ∧ ∃ I < l'.horTileCount.toNat,
        ∃ J < l'.verTileCount.toNat, Collects l' l lo I J lc
  targets : (tb.coordinators.map LayerCoordinator.targetTile).Nodup
  complete : ∀ (k : ℕ) l', tb.layers[k+1]? = some l' → ∀ I < l'.horTileCount.toNat,
    ∀ J < l'.verTileCount.toNat, ∃ lc ∈ tb.coordinators, lc.targetTile = l'.tileAt I J
  tileCount : tb.tileCount = (tb.layers.map fun l => (l.tiles.flatten.length : ℤ)).sum

theorem addLayer_tileCount (l : Layer) (tb : TiledBitmap Lo) :
    (addLayer l tb).tileCount = tb.tileCount+l.tiles.flatten.length := by
  have h : ∀ (ts : List CompressedTile) (n : ℤ), ts.foldl (fun n _ => n+1) n = n+ts.length := by
    intro ts
    induction ts with
    | nil => simp
    | cons t ts ih =>
      intro n
      simp only [List.foldl_cons,ih,List.length_cons]
      push_cast
      ring
  exact h _ _

theorem wired_bottom {getBpp : Lo → ℤ} {w h : ℤ} {ls : List Lo} {lo : Lo} {bottom : Layer}
    (hlo : ls[0]? = some lo) (hb : Layer.create 0 w h (getBpp lo) = some bottom) :
    Wired getBpp (addLayer bottom ⟨w,h,ls,[],[],0⟩) := by
  obtain ⟨hd,-,-,hbpp⟩ := create_eq_some.mp hb
  refine ⟨?_,?_,?_,by simp [addLayer],by simp [addLayer],by simp [addLayer],?_⟩
  · intro k l hl
    cases k with
    | zero =>
      have he : bottom = l := by simpa [addLayer] using hl
      simp [← he,hd]
    | succ k => simp [addLayer] at hl
  · intro k l hl
    cases k with
    | zero =>
      have he : bottom = l := by simpa [addLayer] using hl
      exact ⟨lo,by simpa [addLayer] using hlo,he ▸ hbpp⟩
    | succ k => simp [addLayer] at hl
  · intro k l l' hl hl'
    simp [addLayer] at hl'
  · rw [addLayer_tileCount]
    simp [addLayer]

theorem Wired.addLayer {getBpp : Lo → ℤ} {tb : TiledBitmap Lo} (hw : Wired getBpp tb)
    {prevLayer layer : Layer} {prevLo lo : Lo} {i : ℕ} (hi : tb.layers.length = i+1)
    (hprev : tb.layers[i]? = some prevLayer) (hlo : tb.ls[min i (tb.ls.length-1)]? = some prevLo)
    (ha : Above layer prevLayer) (hd : layer.depth = ((i+1 : ℕ) : ℤ))
    (hm : tb.ls[min (i+1) (tb.ls.length-1)]? = some lo) (hb : layer.bpp = getBpp lo) :
    Wired getBpp { TiledBitmap.addLayer layer tb with
      coordinators := opened layer prevLayer prevLo tb.coordinators layer.verTileCount.toNat
        (visited prevLayer.horTileCount.toNat prevLayer.verTileCount.toNat 0) } := by
  have hold : ∀ k < i+1, (tb.layers ++ [layer])[k]? = tb.layers[k]? := fun k hk =>
    List.getElem?_append_left (by omega)
  have hnew : (tb.layers ++ [layer])[i+1]? = some layer := by
    rw [← hi]
    exact List.getElem?_concat_length
  have hlt : ∀ (k : ℕ) l, (tb.layers ++ [layer])[k]? = some l → (k < i+1 ∧ tb.layers[k]? = some l) ∨
      (k = i+1 ∧ l = layer) := by
    intro k l hl
    rcases lt_trichotomy k (i+1) with hk | hk | hk
    · exact Or.inl ⟨hk,by rwa [hold k hk] at hl⟩
    · subst hk
      exact Or.inr ⟨rfl,Option.some.inj (hl.symm.trans hnew)⟩
    · have hn : (tb.layers ++ [layer])[k]? = none := List.getElem?_eq_none (by simp; omega)
      simp [hn] at hl
  refine ⟨fun k l hl => ?_,fun k l hl => ?_,fun k l l' hl hl' => ?_,fun lc hlc => ?_,?_,
    fun k l' hl' I hI J hJ => ?_,?_⟩
  · rcases hlt k l hl with ⟨-,hl⟩ | ⟨rfl,rfl⟩
    · exact hw.depth k l hl
    · exact hd
  · rcases hlt k l hl with ⟨-,hl⟩ | ⟨rfl,rfl⟩
    · exact hw.bpp k l hl
    · exact ⟨lo,hm,hb⟩
  · rcases hlt (k+1) l' hl' with ⟨hk,hl'⟩ | ⟨hk,rfl⟩
    · exact hw.above k l l' ((hold k (by omega)).symm.trans hl) hl'
    · obtain rfl : k = i := by omega
      obtain rfl : prevLayer = l := Option.some.inj (hprev.symm.trans ((hold k (by omega)).symm.trans hl))
      exact ha
  · rcases mem_opened.mp hlc with hlc | ⟨I,hI,J,hJ,rfl⟩
    · obtain ⟨k,l,l',lo',hl,hl',hlo',hc⟩ := hw.sound lc hlc
      have hk : k+1 < tb.layers.length := (List.getElem?_eq_some_iff.mp hl').1
      exact ⟨k,l,l',lo',(hold k (by omega)).trans hl,(hold (k+1) (by omega)).trans hl',hlo',hc⟩
    · exact ⟨i,prevLayer,layer,prevLo,(hold i (by omega)).trans hprev,hnew,hlo,I,hI,J,hJ,
        coordinator_collects ha prevLo hI⟩
  · refine targets_opened hw.targets fun lc hlc => ?_
    obtain ⟨k,l,l',lo',-,hl',-,I,-,J,-,hc⟩ := hw.sound lc hlc
    have hk : k+1 < tb.layers.length := (List.getElem?_eq_some_iff.mp hl').1
    rw [hc.targetTile,hd]
    simp only [tileAt,hw.depth _ _ hl']
    omega
  · rcases hlt (k+1) l' hl' with ⟨-,hl'⟩ | ⟨-,rfl⟩
    · obtain ⟨lc,hlc,ht⟩ := hw.complete k l' hl' I hI J hJ
      exact ⟨lc,mem_opened.mpr (Or.inl hlc),ht⟩
    · exact ⟨_,mem_opened.mpr (Or.inr ⟨I,hI,J,hJ,rfl⟩),(coordinator_collects ha prevLo hI).targetTile⟩
  · have ht := addLayer_tileCount layer tb
    rw [hw.tileCount] at ht
    simpa [TiledBitmap.addLayer] using ht

/-- The stack is complete: every layer above the bottom was worth adding, the next is not. -/
structure Complete (tb : TiledBitmap Lo) : Prop where
  large : ∀ (k : ℕ) l, tb.layers[k+1]? = some l → tileSize/4 < max l.width l.height
  top : ∃ l, tb.layers.getLast? = some l ∧
    ¬ tileSize/4 < max ((l.width+7).tdiv 8) ((l.height+7).tdiv 8)

theorem eighth_create {prevLayer : Layer} {width height : ℤ} (hw : width = (prevLayer.width+7).tdiv 8)
    (hh : height = (prevLayer.height+7).tdiv 8) (depth bpp : ℤ) :
    ∃ layer, Layer.create depth width height bpp = some layer := by
  refine Option.isSome_iff_exists.mp (create_isSome.mpr ?_)
  have hx := MachineInt.tdiv_le (prevLayer.width+7) (show (0:ℤ) < 8 by decide)
  have hy := MachineInt.tdiv_le (prevLayer.height+7) (show (0:ℤ) < 8 by decide)
  have hpw := prevLayer.width_le
  have hph := prevLayer.height_le
  simp only [tileSize,MachineInt.intMax] at *
  omega

theorem getD_eq_min {ls : List Lo} {i : ℕ} {lo : Lo} (h : ls[min (i-1) (ls.length-1)]? = some lo)
    (hi : 0 < i) : ls[min i (ls.length-1)]? = some (ls.getD i lo) := by
  obtain ⟨hl,-⟩ := List.getElem?_eq_some_iff.mp h
  by_cases hh : i < ls.length
  · have hm : min i (ls.length-1) = i := by omega
    simp [hm,hh]
  · have hm : min i (ls.length-1) = min (i-1) (ls.length-1) := by omega
    rw [hm,h]
    simp [List.getD,List.getElem?_eq_none (Nat.le_of_not_lt hh)]

theorem initializeLoop_wired (getBpp : Lo → ℤ) (tb : TiledBitmap Lo) (prevLayer : Layer) (prevLo : Lo)
    (width height : ℤ) (i : ℕ) (hw : Wired getBpp tb) (hi : tb.layers.length = i)
    (hprev : tb.layers.getLast? = some prevLayer) (hlo : tb.ls[min (i-1) (tb.ls.length-1)]? = some prevLo)
    (hwidth : width = (prevLayer.width+7).tdiv 8) (hheight : height = (prevLayer.height+7).tdiv 8)
    (hl : ∀ (k : ℕ) l, tb.layers[k+1]? = some l → tileSize/4 < max l.width l.height) :
    ∃ tb', initializeLoop getBpp tb prevLayer prevLo width height i = some tb' ∧ Wired getBpp tb' ∧
      Complete tb' ∧ tb.layers <+: tb'.layers ∧ tb'.ls = tb.ls := by
  fun_induction initializeLoop getBpp tb prevLayer prevLo width height i with
  | case1 tb prevLayer prevLo width height i hlarge lo ih =>
    obtain ⟨layer,hlayer⟩ := eighth_create hwidth hheight i (getBpp lo)
    obtain ⟨hd,hlw,hlh,hb⟩ := create_eq_some.mp hlayer
    have ha : Above layer prevLayer := ⟨hlw.trans hwidth,hlh.trans hheight⟩
    have hpos : 0 < tb.layers.length := by
      have h := List.mem_of_getLast? hprev
      exact List.length_pos_of_mem h
    have hlast : tb.layers[i-1]? = some prevLayer := by rw [← hprev,List.getLast?_eq_getElem?,hi]
    have hlo' : tb.ls[min i (tb.ls.length-1)]? = some lo := getD_eq_min hlo (by omega)
    have hn := hw.addLayer (i := i-1) (by omega) hlast hlo ha (by rw [hd]; congr; omega)
      (by rwa [Nat.sub_add_cancel (by omega)]) hb
    obtain ⟨tb',hr,hw',hc,hp,hls⟩ := ih layer _ hn (by simp [addLayer,hi]) (by simp [addLayer]) hlo'
      (by rw [hlw]) (by rw [hlh]) (fun k l hk => by
        by_cases hki : k+1 < tb.layers.length
        · exact hl k l (by simpa [addLayer,List.getElem?_append_left hki] using hk)
        · have he : layer = l := by
            have hk' : (tb.layers ++ [layer])[k+1]? = some l := hk
            rw [List.getElem?_append_right (Nat.le_of_not_lt hki)] at hk'
            exact List.mem_singleton.mp (List.mem_of_getElem? hk') |>.symm
          rwa [← he,hlw,hlh])
    refine ⟨tb',?_,hw',hc,?_,hls⟩
    · simp only [hlayer,Option.bind_eq_bind,Option.bind_some]
      rw [connect_eq ha]
      exact hr
    · exact (List.prefix_append tb.layers [layer]).trans hp
  | case2 tb prevLayer prevLo width height i hsmall =>
    exact ⟨tb,rfl,hw,⟨hl,prevLayer,hprev,by rwa [← hwidth,← hheight]⟩,List.prefix_rfl,rfl⟩

/-- Construction succeeds exactly on a `LayerSpec` with an element and a bitmap whose bottom
layer fits, and what it builds is wired and complete. -/
theorem create_wired (getBpp : Lo → ℤ) {w h : ℤ} {ls : List Lo} {lo : Lo} (hlo : ls[0]? = some lo)
    (hw : w+(tileSize-1) ≤ MachineInt.intMax) (hh : h+(tileSize-1) ≤ MachineInt.intMax) :
    ∃ tb bottom, create getBpp w h ls = some tb ∧ Wired getBpp tb ∧ Complete tb ∧ tb.ls = ls ∧
      tb.layers[0]? = some bottom ∧ bottom.width = w ∧ bottom.height = h := by
  obtain ⟨bottom,hb⟩ := Option.isSome_iff_exists.mp
    (create_isSome (d := 0) (b := getBpp lo).mpr ⟨hw,hh⟩)
  obtain ⟨-,hbw,hbh,-⟩ := create_eq_some.mp hb
  obtain ⟨tb,hr,hwired,hc,hp,hls⟩ := initializeLoop_wired getBpp (addLayer bottom ⟨w,h,ls,[],[],0⟩)
    bottom lo ((w+7).tdiv 8) ((h+7).tdiv 8) 1 (wired_bottom hlo hb) (by simp [addLayer])
    (by simp [addLayer]) (by simpa [addLayer] using hlo) (by rw [hbw]) (by rw [hbh]) (by simp [addLayer])
  refine ⟨tb,bottom,?_,hwired,hc,hls,?_,hbw,hbh⟩
  · simp only [create,hlo,hb,Option.bind_eq_bind,Option.bind_some]
    exact hr
  · obtain ⟨ls',he⟩ := hp
    rw [← he]
    rfl

theorem wired_of_create {getBpp : Lo → ℤ} {w h : ℤ} {ls : List Lo} {tb : TiledBitmap Lo}
    (ht : create getBpp w h ls = some tb) : Wired getBpp tb ∧ Complete tb ∧ tb.ls = ls ∧ 0 < ls.length ∧
      ∃ bottom, tb.layers[0]? = some bottom ∧ bottom.width = w ∧ bottom.height = h := by
  cases hlo : ls[0]? with
  | none => simp [create,hlo] at ht
  | some lo =>
    cases hb : Layer.create 0 w h (getBpp lo) with
    | none => simp [create,hlo,hb] at ht
    | some bottom =>
      obtain ⟨hw,hh⟩ := create_isSome.mp (Option.isSome_of_eq_some hb)
      obtain ⟨tb',b,hr,hwired,hc,hls,hb0,hbw,hbh⟩ := create_wired getBpp hlo hw hh
      obtain rfl : tb' = tb := Option.some.inj (hr.symm.trans ht)
      exact ⟨hwired,hc,hls,(List.getElem?_eq_some_iff.mp hlo).1,b,hb0,hbw,hbh⟩

theorem ceil_eighth {n : ℤ} (hn : 0 ≤ n) (k : ℕ) :
    (⌈(n:ℚ)/8^k⌉+7).tdiv 8 = ⌈(n:ℚ)/8^(k+1)⌉ := by
  have hk : (0:ℤ) < 8^k := by positivity
  have h : 0 ≤ ⌈(n:ℚ)/((8^k : ℤ) : ℚ)⌉ := MachineInt.ceil_div_nonneg hn hk
  have hd := MachineInt.tdiv_eq_ceil h (show (0:ℤ) < 8 by decide)
  have hc := MachineInt.ceil_ceil_div (n := n) hk (show (0:ℤ) < 8 by decide)
  push_cast at h hd hc
  rw [pow_succ,← hc,← hd]

theorem Wired.dimensions {getBpp : Lo → ℤ} {tb : TiledBitmap Lo} (hw : Wired getBpp tb) {bottom : Layer}
    (hb : tb.layers[0]? = some bottom) (hx : 0 ≤ bottom.width) (hy : 0 ≤ bottom.height) (k : ℕ)
    (l : Layer) (hl : tb.layers[k]? = some l) :
    l.width = ⌈(bottom.width:ℚ)/8^k⌉ ∧ l.height = ⌈(bottom.height:ℚ)/8^k⌉ := by
  induction k generalizing l with
  | zero =>
    obtain rfl : bottom = l := Option.some.inj (hb.symm.trans hl)
    simp
  | succ k ih =>
    have hk : k < tb.layers.length := by
      have := (List.getElem?_eq_some_iff.mp hl).1
      omega
    obtain ⟨hpw,hph⟩ := ih _ (List.getElem?_eq_getElem hk)
    have ha := hw.above k _ l (List.getElem?_eq_getElem hk) hl
    rw [ha.width,ha.height,hpw,hph,ceil_eighth hx,ceil_eighth hy]
    exact ⟨rfl,rfl⟩

theorem Complete.length_iff {getBpp : Lo → ℤ} {tb : TiledBitmap Lo} (hc : Complete tb)
    (hw : Wired getBpp tb) {bottom : Layer} (hb : tb.layers[0]? = some bottom) (hx : 0 ≤ bottom.width)
    (hy : 0 ≤ bottom.height) {k : ℕ} (hk : 1 ≤ k) : k < tb.layers.length ↔
      tileSize/4 < max ⌈(bottom.width:ℚ)/8^k⌉ ⌈(bottom.height:ℚ)/8^k⌉ := by
  constructor
  · intro h
    obtain ⟨k,rfl⟩ : ∃ m, k = m+1 := ⟨k-1,by omega⟩
    obtain ⟨hwidth,hheight⟩ := hw.dimensions hb hx hy _ _ (List.getElem?_eq_getElem h)
    exact hwidth ▸ hheight ▸ hc.large k _ (List.getElem?_eq_getElem h)
  · intro h
    by_contra hn
    obtain ⟨top,ht,hs⟩ := hc.top
    have hpos : 0 < tb.layers.length := List.length_pos_of_mem (List.mem_of_getLast? ht)
    obtain ⟨n,hlen⟩ : ∃ n, tb.layers.length = n+1 := ⟨tb.layers.length-1,by omega⟩
    rw [List.getLast?_eq_getElem?,hlen,Nat.add_sub_cancel] at ht
    obtain ⟨hwidth,hheight⟩ := hw.dimensions hb hx hy _ _ ht
    rw [hwidth,hheight,ceil_eighth hx,ceil_eighth hy] at hs
    have hle : ∀ m : ℤ, 0 ≤ m → ⌈(m:ℚ)/8^k⌉ ≤ ⌈(m:ℚ)/8^(n+1)⌉ := fun m hm => by
      have hm' : (0:ℚ) ≤ m := by exact_mod_cast hm
      have hnk : n+1 ≤ k := by omega
      gcongr
      norm_num
    exact hs (h.trans_le (max_le_max (hle _ hx) (hle _ hy)))

/-- The coordinators of the tiles of two consecutive layers, by their place in the list. -/
structure WiredTo (tb : TiledBitmap Lo) (l l' : Layer) (lo : Lo) : Prop where
  inRow : ∀ i < l.horTileCount.toNat, i/8 < l'.horTileCount.toNat
  inLayer : ∀ j < l.verTileCount.toNat, j/8 < l'.verTileCount.toNat
  source : ∀ i < l.horTileCount.toNat, ∀ j < l.verTileCount.toNat, ∃! n : ℕ, ∃ lc,
    tb.coordinators[n]? = some lc ∧ l.tileAt i j ∈ lc.registrations
  coordinator : ∀ lc ∈ tb.coordinators, ∀ i < l.horTileCount.toNat, ∀ j < l.verTileCount.toNat,
    l.tileAt i j ∈ lc.registrations → lc.registrations.count (l.tileAt i j) = 1 ∧ lc.lo = lo ∧
      lc.targetTile = l'.tileAt (i/8) (j/8) ∧ lc.sourceTiles.lookup (l.tileAt i j) = some (i%8,j%8)
  target : ∀ I < l'.horTileCount.toNat, ∀ J < l'.verTileCount.toNat, ∃! n : ℕ, ∃ lc,
    tb.coordinators[n]? = some lc ∧ lc.targetTile = l'.tileAt I J
  sources : ∀ lc ∈ tb.coordinators, ∀ I J, lc.targetTile = l'.tileAt I J →
    1 ≤ lc.registrations.length ∧ lc.registrations.length ≤ 64 ∧
      lc.unfinishedSourceTiles = lc.registrations.length ∧ lc.registrations.Nodup ∧
      ∀ t ∈ lc.registrations, ∀ t' ∈ lc.registrations,
        lc.sourceTiles.lookup t = lc.sourceTiles.lookup t' → t = t'

section Wired
variable {getBpp : Lo → ℤ} {tb : TiledBitmap Lo} {k : ℕ} {l l' : Layer} {lo : Lo}

theorem Wired.place_unique (hw : Wired getBpp tb) {n m : ℕ} {lc lc' : LayerCoordinator Lo}
    (hn : tb.coordinators[n]? = some lc) (hm : tb.coordinators[m]? = some lc')
    (ht : lc.targetTile = lc'.targetTile) : n = m := by
  obtain ⟨hl,-⟩ := List.getElem?_eq_some_iff.mp hn
  exact (List.getElem?_inj (by simpa using hl) hw.targets).mp (by simp [hn,hm,ht])

theorem Wired.collects (hw : Wired getBpp tb) (hl : tb.layers[k]? = some l)
    (hl' : tb.layers[k+1]? = some l') (hlo : tb.ls[min k (tb.ls.length-1)]? = some lo)
    {lc : LayerCoordinator Lo} (hlc : lc ∈ tb.coordinators) {I J : ℕ}
    (h : lc.targetTile = l'.tileAt I J ∨
      ∃ i j, i/8 = I ∧ j/8 = J ∧ l.tileAt i j ∈ lc.registrations) :
    I < l'.horTileCount.toNat ∧ J < l'.verTileCount.toNat ∧ Collects l' l lo I J lc := by
  obtain ⟨m,p,p',po,hp,hp',hpo,A,hA,B,hB,hc⟩ := hw.sound lc hlc
  have hk : m = k := by
    rcases h with ht | ⟨i,j,-,-,hm⟩
    · have hd : (l'.tileAt I J).depth = (p'.tileAt A B).depth := by rw [← ht,hc.targetTile]
      have hd' : l'.depth = p'.depth := hd
      rw [hw.depth _ _ hl',hw.depth _ _ hp'] at hd'
      omega
    · obtain ⟨i',_,j',_,_,_,he⟩ := (hc.mem _).mp hm
      have hd : l.depth = p.depth := congrArg CompressedTile.depth he
      rw [hw.depth _ _ hl,hw.depth _ _ hp] at hd
      omega
  subst hk
  obtain rfl : p = l := Option.some.inj (hp.symm.trans hl)
  obtain rfl : p' = l' := Option.some.inj (hp'.symm.trans hl')
  obtain rfl : po = lo := Option.some.inj (hpo.symm.trans hlo)
  have hIJ : A = I ∧ B = J := by
    rcases h with ht | ⟨i,j,rfl,rfl,hm⟩
    · exact tileAt_inj.mp (hc.targetTile.symm.trans ht)
    · obtain ⟨i',_,j',_,hi,hj,he⟩ := (hc.mem _).mp hm
      obtain ⟨rfl,rfl⟩ := tileAt_inj.mp he
      exact ⟨hi.symm,hj.symm⟩
  obtain ⟨rfl,rfl⟩ := hIJ
  exact ⟨hA,hB,hc⟩

theorem Wired.wiredTo (hw : Wired getBpp tb) (hl : tb.layers[k]? = some l)
    (hl' : tb.layers[k+1]? = some l') (hlo : tb.ls[min k (tb.ls.length-1)]? = some lo) :
    WiredTo tb l l' lo := by
  have ha := hw.above k l l' hl hl'
  have hrow : ∀ i < l.horTileCount.toNat, i/8 < l'.horTileCount.toNat := fun i hi =>
    (ha.lt_horTileCount _).mpr (by omega)
  have hcol : ∀ j < l.verTileCount.toNat, j/8 < l'.verTileCount.toNat := fun j hj =>
    (ha.lt_verTileCount _).mpr (by omega)
  refine ⟨hrow,hcol,fun i hi j hj => ?_,fun lc hlc i _ j _ hm => ?_,fun I hI J hJ => ?_,
    fun lc hlc I J ht => ?_⟩
  · obtain ⟨lc,hlc,ht⟩ := hw.complete k l' hl' _ (hrow i hi) _ (hcol j hj)
    obtain ⟨n,hn⟩ := List.mem_iff_getElem?.mp hlc
    obtain ⟨-,-,hc⟩ := hw.collects hl hl' hlo hlc (Or.inl ht)
    refine ⟨n,⟨lc,hn,(hc.mem _).mpr ⟨i,hi,j,hj,rfl,rfl,rfl⟩⟩,fun m ⟨lc',hm,hr⟩ => ?_⟩
    obtain ⟨-,-,hc'⟩ := hw.collects hl hl' hlo (List.mem_of_getElem? hm) (Or.inr ⟨i,j,rfl,rfl,hr⟩)
    exact hw.place_unique hm hn (hc'.targetTile.trans ht.symm)
  · obtain ⟨-,-,hc⟩ := hw.collects hl hl' hlo hlc (Or.inr ⟨i,j,rfl,rfl,hm⟩)
    exact ⟨List.count_eq_one_of_mem hc.nodup hm,hc.lo,hc.targetTile,hc.offset i j hm⟩
  · obtain ⟨lc,hlc,ht⟩ := hw.complete k l' hl' I hI J hJ
    obtain ⟨n,hn⟩ := List.mem_iff_getElem?.mp hlc
    exact ⟨n,⟨lc,hn,ht⟩,fun m ⟨lc',hm,ht'⟩ => hw.place_unique hm hn (ht'.trans ht.symm)⟩
  · obtain ⟨hI,hJ,hc⟩ := hw.collects hl hl' hlo hlc (Or.inl ht)
    obtain ⟨hmin,hmax⟩ := hc.length ha hI hJ
    exact ⟨hmin,hmax,hc.unfinished,hc.nodup,fun t ht t' ht' he => hc.offset_inj ht ht' he⟩

end Wired

/-- The stack that construction builds for any bitmap size and any operations, and how its
layers are wired. -/
theorem create_pyramid (getBpp : Lo → ℤ) (w h : ℤ) (ls : List Lo) (hls : ls ≠ []) (hw : 1 ≤ w)
    (hh : 1 ≤ h) (hw' : w+4095 ≤ MachineInt.intMax) (hh' : h+4095 ≤ MachineInt.intMax) :
    ∃ tb, create getBpp w h ls = some tb ∧ 0 < tb.layers.length ∧
      (∀ (k : ℕ) l, tb.layers[k]? = some l →
        l.depth = k ∧ l.width = ⌈(w:ℚ)/8^k⌉ ∧ l.height = ⌈(h:ℚ)/8^k⌉) ∧
      (∀ k, 1 ≤ k → (k < tb.layers.length ↔ tileSize/4 < max ⌈(w:ℚ)/8^k⌉ ⌈(h:ℚ)/8^k⌉)) ∧
      ∀ (k : ℕ) l l', tb.layers[k]? = some l → tb.layers[k+1]? = some l' →
        ∃ lo, ls[min k (ls.length-1)]? = some lo ∧ WiredTo tb l l' lo := by
  have hlen : 0 < ls.length := List.length_pos_iff.mpr hls
  obtain ⟨tb,bottom,hr,hwired,hc,rfl,hb,rfl,rfl⟩ := create_wired getBpp (w := w) (h := h)
    (List.getElem?_eq_getElem hlen) hw' hh'
  refine ⟨tb,hr,?_,fun k l hl => ?_,fun k hk => ?_,fun k l l' hl hl' => ?_⟩
  · exact (List.getElem?_eq_some_iff.mp hb).1
  · exact ⟨hwired.depth k l hl,hwired.dimensions hb (by omega) (by omega) k l hl⟩
  · exact hc.length_iff hwired hb (by omega) (by omega) hk
  · have hlo : tb.ls[min k (tb.ls.length-1)]? = some tb.ls[min k (tb.ls.length-1)] :=
      List.getElem?_eq_getElem (by omega)
    exact ⟨_,hlo,hwired.wiredTo hl hl' hlo⟩

theorem create_pyramid_twoLayers : ∃ tb, create id 5000 3000 [(8:ℤ),16] = some tb ∧ 0 < tb.layers.length ∧
      (∀ (k : ℕ) l, tb.layers[k]? = some l →
        l.depth = k ∧ l.width = ⌈((5000:ℤ):ℚ)/8^k⌉ ∧ l.height = ⌈((3000:ℤ):ℚ)/8^k⌉) ∧
      (∀ k, 1 ≤ k → (k < tb.layers.length ↔
        tileSize/4 < max ⌈((5000:ℤ):ℚ)/8^k⌉ ⌈((3000:ℤ):ℚ)/8^k⌉)) ∧
      ∀ (k : ℕ) l l', tb.layers[k]? = some l → tb.layers[k+1]? = some l' →
        ∃ lo, [(8:ℤ),16][min k 1]? = some lo ∧ WiredTo tb l l' lo :=
  create_pyramid id 5000 3000 [8,16] (by decide) (by decide) (by decide) (by decide) (by decide)

end TiledBitmap
end Scroom
