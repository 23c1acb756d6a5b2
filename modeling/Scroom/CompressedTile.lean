import Scroom.Blob
import Scroom.TileLoading

/-! A tile with the blob that holds its data. The tile decides when the blob is initialised and when
pointers to its data are handed out; those who hold pointers write and let go when they like. -/
namespace Scroom
namespace CompressedTile
open Transitions
open TileLoading (TileStateInternal Caller Thread)

variable {n : ℕ} {Pages : Type}

/-- The tile, its blob, and what `initialize` has filled the blob with, with all that was written to
it since. -/
structure Config (n : ℕ) (Pages : Type) where
  tile : TileLoading.Config
  blob : Blob.Config n Pages
  content : Option (Buffer n) := none

def create (state : TileStateInternal) (pages : Pages) : Config n Pages where
  tile := { state := state }
  blob := { blob := { pages := pages } }

/-- `missed` is for a thread in `getTileSync` that found no tile when it checked again, and goes on
after another such thread has made one. -/
inductive Action (n : ℕ)
  | tile (a : TileLoading.Action) (missed : Bool) (address : ℕ) (garbage : Buffer n)
  | blob (a : Blob.Action n)

/-- The call to the blob in a step of the tile. -/
def blobCall (c : TileLoading.Config) (missed : Bool) (address : ℕ) (garbage : Buffer n) :
    TileLoading.Action → Option (Blob.Action n)
  | .initialize_ => if c.state = .uninitialized then some (.initialize_ 0 address garbage) else none
  | .resume (.lockData _) => if c.constTile then none else some (.getConst address garbage)
  | .resume .makeTile => if c.tile && !missed then none else some (.get address garbage)
  | _ => none

/-- What others do to the blob. A `ConstTile` and a `Tile` keep their data as long as they exist. -/
def others (c : Config n Pages) : Blob.Action n → Bool
  | .get _ _ => false
  | .getConst _ _ => false
  | .initialize_ _ _ _ => false
  | .drop k =>
    let rest := c.blob.handles.eraseIdx k
    (!c.tile.constTile || rest.any (!·.writable)) && (!c.tile.tile || rest.any (·.writable))
  | _ => true

section Operations
variable (compressBlob : Buffer n → Pages) (decompressBlob : Pages → Buffer n)

def call (c : Config n Pages) (b : Blob.Action n) : Option (Config n Pages) :=
  (Blob.step compressBlob decompressBlob c.blob b).map fun blob =>
    { c with blob := blob, content := Blob.written c.content b }

def step (c : Config n Pages) : Action n → Option (Config n Pages)
  | .tile a missed address garbage =>
    (TileLoading.step c.tile a).bind fun tile =>
      match blobCall c.tile missed address garbage a with
      | none => some { c with tile := tile }
      | some b => call compressBlob decompressBlob { c with tile := tile } b
  | .blob b => if others c b then call compressBlob decompressBlob c b else none

/-! ### What is promised -/

/-- A tile that was created uninitialised has been initialised before it is anything else, and until
then `initialize` takes effect. Who holds a pointer sees what `initialize` has filled the data with,
and what was written since. While the tile is not initialised or out of bounds, there is no tile in
memory to be handed out. -/
structure Sound (created : TileStateInternal) (c : Config n Pages) : Prop where
  awake : created = .uninitialized → c.tile.state.asleep = false → c.content ≠ none
  first : created = .uninitialized → c.content = none → ∀ missed address garbage d,
    step compressBlob decompressBlob c (.tile .initialize_ missed address garbage) = some d →
      d.tile.state = .normal ∧ d.content = some (Vector.replicate n 0)
  shown : ∀ handle ∈ c.blob.handles, c.content ≠ none ∧ c.blob.heap handle.block.data = c.content
  asleep : c.tile.state.asleep = true → c.tile.constTile = false ∧ c.tile.tile = false

end Operations

def asks : Caller → Bool
  | .getConstTileSync => true
  | .getTileSync => true
  | _ => false

/-- Who asks for the data of a tile that is not initialised or out of bounds gets an empty reference,
and the tile stays as it is. -/
def EmptyReference (c : Config n Pages) (a : Action n) (d : Config n Pages) : Prop :=
  ∀ caller missed address garbage, a = .tile (.resume (.lockState caller)) missed address garbage →
    asks caller = true → c.tile.state.asleep = true →
      d.tile = { c.tile with threads := c.tile.threads.erase (.lockState caller) }

/-- `do_load` does not look at the state of the tile. It must not begin while the tile is not
initialised, nor for who asks for the data while the tile is out of bounds, and it must not load what
was never initialised. -/
def allowed (c : Config n Pages) : Action n → Bool
  | .tile (.resume (.lockState caller)) _ _ _ =>
    c.tile.state ≠ .uninitialized && (c.tile.state ≠ .outOfBounds || !asks caller)
  | .tile (.resume (.lockData _)) _ _ _ => c.tile.constTile || c.content.isSome
  | _ => true

/-! ### The tile alone -/

variable {s t : TileLoading.Config} {a : TileLoading.Action}

/-- There is no tile in memory, and none will be loaded for an observer. -/
structure Empty (s : TileLoading.Config) : Prop where
  state : s.state ≠ .normal ∧ s.state ≠ .loadingAsynchronously
  constTile : s.constTile = false
  tile : s.tile = false
  threads : ∀ t ∈ s.threads, t.holdsTile = false

theorem Empty.cleanupState (h : Empty s) : TileLoading.cleanupState s = s :=
  if_neg fun hc => h.state.2 hc.1

theorem Empty.checkState (h : Empty s) (i : ℕ) (r : TileLoading.Registration) (queue_ : Option ℕ) :
    TileLoading.checkState s i r queue_ =
      TileLoading.setRegistration s i { r with phase := .checkedState queue_ } := by
  unfold TileLoading.checkState
  simp only [h.cleanupState]
  cases hs : s.state with
  | normal => exact absurd hs h.state.1
  | _ => rfl

theorem Empty.observerAdded (h : Empty s) {i : ℕ} {r : TileLoading.Registration}
    (hs : TileLoading.observerAdded s i r = some t) : ∃ r', t = TileLoading.setRegistration s i r' := by
  unfold TileLoading.observerAdded at hs
  split at hs <;> cases hs
  case h_3 queue_ _ => exact ⟨_,h.checkState i r queue_⟩
  all_goals exact ⟨_,rfl⟩

theorem Empty.spawn (h : Empty s) {threads : List Thread} (ht : ∀ t ∈ threads, t.holdsTile = false) :
    Empty (TileLoading.spawn s threads) :=
  { h with threads := fun t hm => (List.mem_append.mp hm).elim (h.threads t) (ht t) }

theorem Empty.erase (h : Empty s) (t : Thread) : Empty { s with threads := s.threads.erase t } :=
  { h with threads := fun u hu => h.threads u (List.mem_of_mem_erase hu) }

theorem Empty.resume (h : Empty s) {u : Thread} (hu : u.holdsTile = false)
    (hload : ∀ caller, u ≠ .lockData caller) :
    Empty (TileLoading.resume s u) ∧ ((TileLoading.resume s u).state = s.state ∨
      (TileLoading.resume s u).state = .loadingSynchronously ∧ ∃ caller, u = .lockState caller) := by
  cases u with
  | getTileSync =>
    simp only [TileLoading.resume,h.tile,Bool.false_eq_true,if_false]
    exact ⟨h.spawn (by simp [Thread.holdsTile]),.inl rfl⟩
  | getConstTileSync caller =>
    simp only [TileLoading.resume,h.constTile,Bool.false_eq_true,if_false]
    exact ⟨h.spawn (by simp [Thread.holdsTile]),.inl rfl⟩
  | lockState caller =>
    simp only [TileLoading.resume,h.cleanupState]
    refine ⟨Empty.spawn ?_ (by simp [Thread.holdsTile]),.inr ⟨rfl,caller,rfl⟩⟩
    exact { h with state := by simp }
  | lockData caller => exact absurd rfl (hload caller)
  | _ => cases hu

/-- While there is no tile, only `initialize` and `do_load` change the state. -/
theorem Empty.step (h : Empty s) (hinit : a = .initialize_ → s.state ≠ .uninitialized)
    (hload : ∀ caller, a ≠ .resume (.lockData caller)) (hs : TileLoading.step s a = some t) :
    Empty t ∧ (t.state = s.state ∨ t.state = .loadingSynchronously ∧ ∃ caller, a = .resume (.lockState caller)) := by
  cases a with
  | registerObserver =>
    cases hs
    exact ⟨{ h with },.inl rfl⟩
  | observerAdded i =>
    obtain ⟨r,-,hs⟩ := Option.bind_eq_some_iff.mp hs
    obtain ⟨r',rfl⟩ := h.observerAdded hs
    exact ⟨{ h with },.inl rfl⟩
  | dropToken i =>
    obtain ⟨r,-,hs⟩ := Option.bind_eq_some_iff.mp hs
    split at hs <;> cases hs
    exact ⟨{ h with },.inl rfl⟩
  | initialize_ =>
    rw [TileLoading.step,if_neg (hinit rfl)] at hs
    cases hs
    exact ⟨h,.inl rfl⟩
  | getTileSync =>
    cases hs
    exact ⟨h.spawn (by simp [Thread.holdsTile]),.inl rfl⟩
  | getConstTileSync =>
    cases hs
    exact ⟨h.spawn (by simp [Thread.holdsTile]),.inl rfl⟩
  | reportFinished =>
    cases hs
    exact ⟨h.spawn (by simp [Thread.holdsTile]),.inl rfl⟩
  | startJob q =>
    have hd : Empty { s with jobs := s.jobs.erase q } := { h with }
    simp only [TileLoading.step] at hs
    split_ifs at hs <;> cases hs
    · exact ⟨hd.spawn (by simp [Thread.holdsTile]),.inl rfl⟩
    · exact ⟨hd,.inl rfl⟩
  | resume u =>
    simp only [TileLoading.step] at hs
    split_ifs at hs with hu
    cases hs
    obtain ⟨hd,hstate⟩ := (h.erase u).resume (h.threads u hu) fun caller he => hload caller (by rw [he])
    refine ⟨hd,hstate.imp id ?_⟩
    rintro ⟨hl,caller,he⟩
    exact ⟨hl,caller,by rw [he]⟩
  | expireConstTile =>
    simp only [TileLoading.step] at hs
    split_ifs at hs
    cases hs
    exact ⟨{ h with constTile := rfl },.inl rfl⟩
  | expireTile =>
    cases hs
    exact ⟨{ h with tile := rfl },.inl rfl⟩

theorem state_cleanupState (s : TileLoading.Config) :
    (TileLoading.cleanupState s).state = s.state ∨ (TileLoading.cleanupState s).state = .normal := by
  rcases TileLoading.cleanupState_eq s with h | ⟨-,h⟩ <;> simp [h]

theorem state_checkState (s : TileLoading.Config) (i : ℕ) (r : TileLoading.Registration) (queue_ : Option ℕ) :
    (TileLoading.checkState s i r queue_).state = s.state ∨
      (TileLoading.checkState s i r queue_).state.asleep = false := by
  unfold TileLoading.checkState
  dsimp only
  split
  · exact .inr rfl
  · exact .inr rfl
  · exact (state_cleanupState s).imp id fun h => by
      rw [TileLoading.setRegistration,h]
      rfl

theorem state_resume (s : TileLoading.Config) (u : Thread) :
    (TileLoading.resume s u).state = s.state ∨ (TileLoading.resume s u).state.asleep = false := by
  cases u with
  | lockState caller => exact .inr rfl
  | lockStateAgain didLoad caller => cases didLoad <;> exact .inr rfl
  | makeTile => exact .inl rfl
  | report => exact .inl rfl
  | _ =>
    left
    simp only [TileLoading.resume]
    split_ifs <;> rfl

theorem state_of_step (hs : TileLoading.step s a = some t) : t.state = s.state ∨ t.state.asleep = false := by
  cases a with
  | observerAdded i =>
    obtain ⟨r,-,hs⟩ := Option.bind_eq_some_iff.mp hs
    unfold TileLoading.observerAdded at hs
    split at hs <;> cases hs
    case h_3 queue_ _ => exact state_checkState s i r queue_
    all_goals exact .inl rfl
  | dropToken i =>
    obtain ⟨r,-,hs⟩ := Option.bind_eq_some_iff.mp hs
    split at hs <;> cases hs
    exact .inl rfl
  | resume u =>
    simp only [TileLoading.step] at hs
    split_ifs at hs
    cases hs
    exact state_resume _ u
  | initialize_ =>
    simp only [TileLoading.step] at hs
    split_ifs at hs <;> cases hs
    · exact .inr rfl
    · exact .inl rfl
  | startJob q =>
    simp only [TileLoading.step] at hs
    split_ifs at hs <;> cases hs <;> exact .inl rfl
  | expireConstTile =>
    simp only [TileLoading.step] at hs
    split_ifs at hs
    cases hs
    exact .inl rfl
  | _ =>
    cases hs
    exact .inl rfl

/-! ### The tile with its blob -/

variable {compressBlob : Buffer n → Pages} {decompressBlob : Pages → Buffer n}
variable {created : TileStateInternal} {pages : Pages} {c d : Config n Pages} {b : Blob.Action n}
variable {act : Action n}

/-- Until it is initialised, the blob is as it was created. -/
structure Inv (decompressBlob : Pages → Buffer n) (created : TileStateInternal) (pages : Pages)
    (c : Config n Pages) : Prop where
  blob : Blob.Inv decompressBlob c.content c.blob
  empty : c.content = none → Empty c.tile
  untouched : c.content = none → c.blob = { blob := { pages := pages } }
  created : c.content = none → (c.tile.state = .uninitialized ↔ created = .uninitialized)
  filled : c.content ≠ none → c.tile.state.asleep = false

theorem inv_create (h : created.asleep = true) (pages : Pages) :
    Inv decompressBlob created pages (create created pages : Config n Pages) where
  blob := Blob.inv_initial pages
  empty := fun _ => {
    state := by constructor <;> rintro rfl <;> cases h
    constTile := rfl
    tile := rfl
    threads := by simp [create] }
  untouched := fun _ => rfl
  created := fun _ => Iff.rfl
  filled := fun hc => absurd rfl hc

theorem written_ne_none {content : Option (Buffer n)} (h : content ≠ none) (b : Blob.Action n) :
    Blob.written content b ≠ none := by
  cases b <;> simp_all [Blob.written]

theorem call_eq_some (h : call compressBlob decompressBlob c b = some d) :
    ∃ blob, Blob.step compressBlob decompressBlob c.blob b = some blob ∧
      d = { c with blob := blob, content := Blob.written c.content b } := by
  obtain ⟨blob,hb,rfl⟩ := Option.map_eq_some_iff.mp h
  exact ⟨blob,hb,rfl⟩

theorem Inv.called (hi : Inv decompressBlob created pages c) (hc : ∀ x, decompressBlob (compressBlob x) = x)
    {tile : TileLoading.Config} (hfilled : Blob.written c.content b ≠ none) (hawake : tile.state.asleep = false)
    (h : call compressBlob decompressBlob { c with tile := tile } b = some d) :
    Inv decompressBlob created pages d := by
  obtain ⟨blob,hb,rfl⟩ := call_eq_some h
  exact {
    blob := hi.blob.step (fun x _ => hc x) hb
    empty := fun he => absurd he hfilled
    untouched := fun he => absurd he hfilled
    created := fun he => absurd he hfilled
    filled := fun _ => hawake }

/-- Nobody has a pointer to a blob that was never used. -/
theorem Inv.others (hi : Inv decompressBlob created pages c) (ho : others c b = true)
    (h : call compressBlob decompressBlob c b = some d) : c.content ≠ none := by
  intro hn
  obtain ⟨blob,hb,-⟩ := call_eq_some h
  rw [hi.untouched hn] at hb
  cases b <;> simp_all [CompressedTile.others,Blob.step,Blob.enabled]

theorem tile_eq_some {missed : Bool} {address : ℕ} {garbage : Buffer n}
    (h : step compressBlob decompressBlob c (.tile a missed address garbage) = some d) :
    ∃ tile, TileLoading.step c.tile a = some tile ∧
      (blobCall c.tile missed address garbage a = none ∧ d = { c with tile := tile } ∨
        ∃ b, blobCall c.tile missed address garbage a = some b ∧
          call compressBlob decompressBlob { c with tile := tile } b = some d) := by
  obtain ⟨tile,ht,h⟩ := Option.bind_eq_some_iff.mp h
  refine ⟨tile,ht,?_⟩
  split at h
  case h_1 hb =>
    cases h
    exact .inl ⟨hb,rfl⟩
  case h_2 b hb => exact .inr ⟨b,hb,h⟩

/-- While there is no tile, the blob is called only to initialise it, and to load it. -/
theorem Empty.blobCall (h : Empty s) {missed : Bool} {address : ℕ} {garbage : Buffer n}
    (hs : TileLoading.step s a = some t) (hb : blobCall s missed address garbage a = some b) :
    a = .initialize_ ∧ s.state = .uninitialized ∧ t.state = .normal ∧ b = .initialize_ 0 address garbage ∨
      ∃ caller, a = .resume (.lockData caller) ∧ s.constTile = false ∧ b = .getConst address garbage := by
  unfold CompressedTile.blobCall at hb
  split at hb
  · split_ifs at hb with hu
    cases hb
    rw [TileLoading.step,if_pos hu] at hs
    cases hs
    exact .inl ⟨rfl,hu,rfl,rfl⟩
  · split_ifs at hb with hc
    cases hb
    exact .inr ⟨_,rfl,h.constTile,rfl⟩
  · simp only [TileLoading.step] at hs
    split_ifs at hs with hm
    cases h.threads _ hm
  · cases hb

/-- A step of a tile that was never initialised. -/
theorem Inv.first (hi : Inv decompressBlob created pages c) (hc : ∀ x, decompressBlob (compressBlob x) = x)
    (hn : c.content = none) {missed : Bool} {address : ℕ} {garbage : Buffer n}
    (hok : allowed c (.tile a missed address garbage) = true)
    (h : step compressBlob decompressBlob c (.tile a missed address garbage) = some d) :
    Inv decompressBlob created pages d := by
  have he := hi.empty hn
  obtain ⟨tile,ht,h⟩ := tile_eq_some h
  have hload : ∀ caller, a ≠ .resume (.lockData caller) := by
    rintro caller rfl
    simp [allowed,he.constTile,hn] at hok
  rcases h with ⟨hb,rfl⟩ | ⟨b,hb,h⟩
  · have hinit : a = .initialize_ → c.tile.state ≠ .uninitialized := by
      rintro rfl hu
      simp [CompressedTile.blobCall,hu] at hb
    obtain ⟨hempty,hstate⟩ := he.step hinit hload ht
    refine { hi with empty := fun _ => hempty, created := fun _ => ?_, filled := fun hf => absurd hn hf }
    rcases hstate with hstate | ⟨hstate,caller,rfl⟩
    · rw [hstate]
      exact hi.created hn
    · have hu : c.tile.state ≠ .uninitialized := by
        intro hu
        simp [allowed,hu] at hok
      exact iff_of_false (by simp [hstate]) (fun hcr => hu ((hi.created hn).mpr hcr))
  · rcases he.blobCall ht hb with ⟨-,-,hnormal,rfl⟩ | ⟨caller,rfl,-⟩
    · exact hi.called hc (by simp [Blob.written]) (by rw [hnormal]; rfl) h
    · exact absurd rfl (hload caller)

theorem Inv.step (hi : Inv decompressBlob created pages c) (hc : ∀ x, decompressBlob (compressBlob x) = x)
    (hok : allowed c act = true) (h : step compressBlob decompressBlob c act = some d) :
    Inv decompressBlob created pages d := by
  cases act with
  | tile a missed address garbage =>
    by_cases hn : c.content = none
    · exact hi.first hc hn hok h
    obtain ⟨tile,ht,h⟩ := tile_eq_some h
    have hawake : tile.state.asleep = false :=
      (state_of_step ht).elim (fun hs => hs ▸ hi.filled hn) id
    rcases h with ⟨-,rfl⟩ | ⟨b,-,h⟩
    · exact {
        blob := hi.blob
        empty := fun he => absurd he hn
        untouched := fun he => absurd he hn
        created := fun he => absurd he hn
        filled := fun _ => hawake }
    · exact hi.called hc (written_ne_none hn b) hawake h
  | blob b =>
    simp only [CompressedTile.step] at h
    split_ifs at h with ho
    have hn := hi.others ho h
    exact hi.called hc (written_ne_none hn b) (hi.filled hn) h

theorem Inv.sound (hi : Inv decompressBlob created pages c) :
    Sound compressBlob decompressBlob created c where
  awake := by
    rintro hcr hawake hn
    simp [(hi.created hn).mpr hcr,TileStateInternal.asleep] at hawake
  first := by
    intro hcr hn missed address garbage d h
    have hu := (hi.created hn).mpr hcr
    obtain ⟨tile,ht,h⟩ := tile_eq_some h
    rcases h with ⟨hb,-⟩ | ⟨b,hb,h⟩
    · simp [blobCall,hu] at hb
    · rcases (hi.empty hn).blobCall ht hb with ⟨-,-,hnormal,rfl⟩ | ⟨caller,ha,-⟩
      · obtain ⟨blob,-,rfl⟩ := call_eq_some h
        exact ⟨hnormal,rfl⟩
      · cases ha
  shown := by
    intro handle hh
    have hn : c.content ≠ none := by
      intro hn
      simp [hi.untouched hn] at hh
    obtain ⟨y,hy,hx⟩ := hi.blob.read hh
    obtain ⟨x,hsome⟩ := Option.ne_none_iff_exists'.mp hn
    exact ⟨hn,by rw [hy,hsome,hx x hsome]⟩
  asleep := by
    intro ha
    have hn : c.content = none := by
      by_contra hn
      rw [hi.filled hn] at ha
      cases ha
    exact ⟨(hi.empty hn).constTile,(hi.empty hn).tile⟩

/-! ### Asked too early -/

theorem lockState_eq_some {caller : Caller} {missed : Bool} {address : ℕ} {garbage : Buffer n}
    (h : step compressBlob decompressBlob c (.tile (.resume (.lockState caller)) missed address garbage) = some d) :
    d.tile.state = .loadingSynchronously ∧ d.content = c.content := by
  obtain ⟨tile,ht,h⟩ := tile_eq_some h
  simp only [TileLoading.step] at ht
  split_ifs at ht
  cases ht
  rcases h with ⟨-,rfl⟩ | ⟨b,hb,-⟩
  · exact ⟨rfl,rfl⟩
  · cases hb

theorem handles_of_getConst {blob blob' : Blob.Config n Pages} {address : ℕ} {garbage : Buffer n}
    (h : Blob.step compressBlob decompressBlob blob (.getConst address garbage) = some blob') :
    blob'.handles ≠ [] := by
  obtain ⟨-,h⟩ := Blob.step_eq_some.mp h
  obtain ⟨block,e,-,rfl⟩ := Blob.getConst_eq_some h
  simp

/-- Whatever happens that is not allowed, breaks a promise at once. -/
theorem Inv.allowed_of_sound (hi : Inv decompressBlob created pages c)
    (h : CompressedTile.step compressBlob decompressBlob c act = some d)
    (hd : Sound compressBlob decompressBlob created d)
    (he : EmptyReference c act d) : allowed c act = true := by
  unfold allowed
  split
  case h_1 caller missed address garbage =>
    obtain ⟨hstate,hcontent⟩ := lockState_eq_some h
    have hu : c.tile.state ≠ .uninitialized := by
      intro hu
      have hn : c.content = none := by
        by_contra hn
        have hawake := hi.filled hn
        rw [hu] at hawake
        cases hawake
      exact hd.awake ((hi.created hn).mp hu) (by rw [hstate]; rfl) (hcontent.trans hn)
    have ho : c.tile.state = .outOfBounds → asks caller = false := by
      intro ho
      by_contra ha
      have hsame := he caller missed address garbage rfl (by simpa using ha) (by rw [ho]; rfl)
      rw [hsame] at hstate
      exact absurd (hstate.symm.trans ho) (by decide)
    by_cases hb : c.tile.state = .outOfBounds
    · simp [hu,ho hb]
    · simp [hu,hb]
  case h_2 caller missed address garbage =>
    by_contra hno
    simp only [Bool.or_eq_true,not_or,Bool.not_eq_true,Option.isSome_eq_false_iff,Option.isNone_iff_eq_none] at hno
    have hcall : blobCall c.tile missed address garbage (.resume (.lockData caller)) =
        some (.getConst address garbage) := by
      simp [blobCall,hno.1]
    obtain ⟨tile,-,⟨hb,-⟩ | ⟨b,hb,h⟩⟩ := tile_eq_some h
    · cases hcall.symm.trans hb
    cases hcall.symm.trans hb
    obtain ⟨blob,hb,rfl⟩ := call_eq_some h
    obtain ⟨handle,hh⟩ := List.exists_mem_of_ne_nil _ (handles_of_getConst hb)
    exact (hd.shown handle hh).1 hno.2
  case h_3 => rfl

theorem emptyReference_of_allowed (h : allowed c act = true) : EmptyReference c act d := by
  rintro caller missed address garbage rfl ha hs
  cases hc : c.tile.state <;> simp_all [allowed,TileStateInternal.asleep]

/-- The promises are kept exactly in the runs in which nobody asks for the data, and nothing is loaded,
before the tile is initialised. -/
theorem promised_iff (hc : ∀ x, decompressBlob (compressBlob x) = x) (hs : created.asleep = true) (pages : Pages)
    {as : List (Action n)} (hr : run (step compressBlob decompressBlob) as (create created pages) = some c) :
    (Sound compressBlob decompressBlob created (create created pages) ∧
        Throughout (step compressBlob decompressBlob)
          (fun c a d => Sound compressBlob decompressBlob created d ∧ EmptyReference c a d) as (create created pages)) ↔
      Within (step compressBlob decompressBlob) (fun c a => allowed c a = true) as (create created pages) := by
  have hi : Inv decompressBlob created pages (create created pages : Config n Pages) := inv_create hs pages
  rw [and_iff_right hi.sound]
  refine throughout_iff_within (fun c a d hi hok h => hi.step hc hok h) (fun c a d hi h => ?_) hi hr
  constructor
  · rintro ⟨hd,he⟩
    exact hi.allowed_of_sound h hd he
  · intro hok
    exact ⟨(hi.step hc hok h).sound,emptyReference_of_allowed hok⟩

/-- A blob of two bytes, the pages of which hold what it holds. -/
def twoBytes (pages : List UInt8) : Buffer 2 := Vector.ofFn fun i => pages.getD i 0

theorem twoBytes_toList (x : Buffer 2) : twoBytes x.toList = x := by
  ext i hi
  simp [twoBytes,hi]

/-- A tile is initialised, loaded and written to, and asked for once more. -/
def initialiseFirst : List (Action 2) :=
  [.tile .initialize_ false 0 #v[1,2],.tile (.resume .getTileSync) false 1 #v[3,4],
    .tile (.resume (.getConstTileSync .getTileSync)) false 1 #v[3,4],
    .tile (.resume (.lockState .getTileSync)) false 1 #v[3,4],
    .tile (.resume (.lockData .getTileSync)) false 1 #v[3,4],
    .tile (.resume (.lockStateAgain true .getTileSync)) false 1 #v[3,4],
    .tile (.resume .makeTile) false 1 #v[3,4],.blob (.write 2 1 7),.blob (.drop 0),
    .tile .getConstTileSync false 1 #v[3,4],.tile (.resume (.getConstTileSync .getConstTileSync)) false 1 #v[3,4]]

theorem promised_iff_initialiseFirst :
    Throughout (step Vector.toList twoBytes)
      (fun c a d => Sound Vector.toList twoBytes .uninitialized d ∧ EmptyReference c a d) initialiseFirst
      (create .uninitialized []) :=
  ((promised_iff twoBytes_toList rfl [] (Option.some_get (by rfl)).symm).mpr (by decide)).2

/-- A tile that is asked for before it is initialised shows what happened to be in memory. After that
`initialize` no longer has an effect. -/
def askFirst : List (Action 2) :=
  [.tile .getConstTileSync false 0 #v[1,2],
    .tile (.resume (.getConstTileSync .getConstTileSync)) false 0 #v[1,2],
    .tile (.resume (.lockState .getConstTileSync)) false 0 #v[1,2],
    .tile (.resume (.lockData .getConstTileSync)) false 0 #v[1,2],
    .tile (.resume (.lockStateAgain true .getConstTileSync)) false 0 #v[1,2],
    .tile .initialize_ false 1 #v[3,4]]

theorem askFirst_garbage :
    (∃ c, run (step Vector.toList twoBytes) askFirst (create .uninitialized []) = some c ∧
      c.tile.state = .normal ∧ c.content = none ∧
      c.blob.handles.map (fun handle => c.blob.heap handle.block.data) = [some #v[1,2]]) ∧
    ¬Throughout (step Vector.toList twoBytes)
      (fun c a d => Sound Vector.toList twoBytes .uninitialized d ∧ EmptyReference c a d) askFirst
      (create .uninitialized []) := by
  refine ⟨⟨_,rfl,rfl,rfl,rfl⟩,fun h => ?_⟩
  have hd := ((((h _ rfl).2 _ rfl).2 _ rfl).1).1
  exact hd.awake rfl rfl rfl

end CompressedTile
end Scroom
