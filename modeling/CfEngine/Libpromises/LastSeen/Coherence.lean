import CfEngine.Libpromises.ItemLib
import CfEngine.Libpromises.LastSeen

namespace CfEngine

def listsCompare (list₁ list₂ : List CString) : Bool :=
  list₁.length = list₂.length ∧ ∀ name ∈ list₁, isItemIn list₂ name

namespace LastSeen

-- The lists that are collected, and the buffer for the values.
structure Coherence where
  qkeys  : List CString
  akeys  : List CString
  kkeys  : List CString
  ahosts : List CString
  khosts : List CString
  val    : Buffer

def Coherence.init (val : Buffer) : Coherence :=
  ⟨[], [], [], [], [], val⟩

def addItem (list : List CString) (item : CString) : List CString :=
  if isItemIn list item then list else item :: list

-- A value that is longer than the buffer is written behind it.
def readValue (db : LastSeenDB) (key : CString) (val : Buffer) : Option (Option Buffer) :=
  match db.readDB key with
  | none       => some none
  | some value => if cfBufSize < value.length then none else some <| some <| value ++ val.drop value.length

def coherenceOfKey (db : LastSeenDB) (c : Coherence) (key : CString) : Option Coherence :=
  if key.head? = some 'q' then
    if key.take 5 = "qiSHA".toList ∨ key.take 5 = "qoSHA".toList ∨
        key.take 5 = "qiMD5".toList ∨ key.take 5 = "qoMD5".toList then
      some { c with qkeys := addItem c.qkeys <| key.drop 2 }
    else
      some c
  else if key.head? = some 'k' then
    if key.take 4 = "kSHA".toList ∨ key.take 4 = "kMD5".toList then
      (readValue db key c.val).map fun
        | none     => { c with kkeys := addItem c.kkeys key.tail }
        | some val =>
          { c with kkeys := addItem c.kkeys key.tail, khosts := addItem c.khosts <| Buffer.toCString val, val := val }
    else
      some c
  else if key.head? = some 'a' then
    (readValue db key c.val).map fun
      | none     => { c with ahosts := addItem c.ahosts key.tail }
      | some val =>
        { c with ahosts := addItem c.ahosts key.tail, akeys := addItem c.akeys <| Buffer.toCString val, val := val }
  else
    some c

-- The keys are in the order in which the cursor comes to them, and the buffer is not initialised. There is no result
-- if a value does not fit into the buffer.
def isLastSeenCoherent (db : LastSeenDB) (keys : List CString) (val : Buffer) : Option Bool := do
  let c ← keys.foldlM (coherenceOfKey db) <| Coherence.init val
  return listsCompare c.ahosts c.khosts && listsCompare c.akeys c.kkeys

-- `IsDigestOrHost` takes a text for a digest by its first characters.
def IsDigest (text : CString) : Prop :=
  text.take 4 = "SHA=".toList ∨ text.take 4 = "MD5=".toList

-- The cursor comes to every entry once.
def VisitsEntries (keys : List CString) (db : LastSeenDB) : Prop :=
  keys.Nodup ∧ ∀ key, key ∈ keys ↔ (db key).isSome

-- The entries that are about hosts and digests.
structure HoldsNames (db : LastSeenDB) : Prop where
  forward : ∀ text value, db ('k' :: text) = some value → IsDigest text ∧
    ∃ h : HostName, h.text ≠ [] ∧ value = textValue h.text
  reverse : ∀ text value, db ('a' :: text) = some value → text ≠ [] ∧
    ∃ d : HostName, IsDigest d.text ∧ value = textValue d.text

-- Every entry of a digest has one of its host that leads back, and the other way round.
def Coherent (db : LastSeenDB) : Prop :=
  ∀ digest host, db ('k' :: digest) = some (textValue host) ↔ db ('a' :: host) = some (textValue digest)

-- The hosts are the same on both sides, and so are the digests.
structure SameNames (db : LastSeenDB) : Prop where
  hosts   : ∀ host, (db ('a' :: host)).isSome ↔ ∃ digest, db ('k' :: digest) = some (textValue host)
  digests : ∀ digest, (db ('k' :: digest)).isSome ↔ ∃ host, db ('a' :: host) = some (textValue digest)

-- A host is entered for a digest while its own entry names another one.
def Crossed (db : LastSeenDB) : Prop :=
  ∃ digest host digest', db ('k' :: digest) = some (textValue host) ∧ db ('a' :: host) = some (textValue digest') ∧
    digest ≠ digest'

section
variable {db : LastSeenDB} {keys list list₁ list₂ : List CString} {val : Buffer} {x item : CString}

theorem mem_addItem (h : item ≠ []) : x ∈ addItem list item ↔ x = item ∨ x ∈ list := by
  rw [addItem]
  split
  case isTrue hin  =>
    have hin : item ∈ list := (of_decide_eq_true hin).resolve_left h
    exact ⟨.inr, fun hx => hx.elim (fun he => he ▸ hin) id⟩
  case isFalse     => exact List.mem_cons

theorem nodup_addItem (h : list.Nodup) : (addItem list item).Nodup := by
  rw [addItem]
  split
  case isTrue       => exact h
  case isFalse hnot => exact List.nodup_cons.mpr ⟨fun hin => hnot <| decide_eq_true <| .inr hin, h⟩

theorem listsCompare_iff (h₁ : list₁.Nodup) (h₂ : list₂.Nodup) (hne : [] ∉ list₁) :
    listsCompare list₁ list₂ ↔ ∀ x, x ∈ list₁ ↔ x ∈ list₂ := by
  rw [listsCompare, decide_eq_true_iff]
  constructor
  case mp  =>
    intro ⟨hlen, hall⟩
    have hsub : list₁ ⊆ list₂ := fun x hx => (of_decide_eq_true <| hall x hx).resolve_left fun he => hne <| he ▸ hx
    have hperm := (h₁.subperm hsub).perm_of_length_le hlen.ge
    exact fun x => hperm.mem_iff
  case mpr =>
    intro hiff
    have hperm := (List.perm_ext_iff_of_nodup h₁ h₂).mpr hiff
    exact ⟨hperm.length_eq, fun x hx => decide_eq_true <| .inr <| (hiff x).mp hx⟩

-- The lists are sets of names.
def Lists (list : List CString) (p : CString → Prop) : Prop :=
  list.Nodup ∧ ∀ x, x ∈ list ↔ p x

theorem Lists.add {p : CString → Prop} (h : Lists list p) (hne : item ≠ []) : Lists (addItem list item) fun x => p x ∨ x = item :=
  ⟨nodup_addItem h.left, fun x => by rw [mem_addItem hne, h.right, or_comm]⟩

theorem Lists.congr {p q : CString → Prop} (h : Lists list p) (hpq : ∀ x, p x ↔ q x) : Lists list q :=
  ⟨h.left, fun x => (h.right x).trans <| hpq x⟩

-- What has been collected from the keys that the cursor has come to.
structure Collected (db : LastSeenDB) (keys : List CString) (c : Coherence) : Prop where
  kkeys  : Lists c.kkeys fun x => 'k' :: x ∈ keys
  khosts : Lists c.khosts fun x => ∃ digest, 'k' :: digest ∈ keys ∧ db ('k' :: digest) = some (textValue x)
  ahosts : Lists c.ahosts fun x => 'a' :: x ∈ keys
  akeys  : Lists c.akeys fun x => ∃ host, 'a' :: host ∈ keys ∧ db ('a' :: host) = some (textValue x)

theorem toCString_readValue (n : HostName) (val : Buffer) :
    Buffer.toCString (textValue n.text ++ val.drop (textValue n.text).length) = n.text := by
  have hchars : ∀ c ∈ n.text, decide (c ≠ '\x00') := fun c hc => decide_eq_true fun he => n.isTerminated <| he ▸ hc
  rw [Buffer.toCString, textValue, List.append_assoc, List.takeWhile_append_of_pos hchars, List.singleton_append,
    List.takeWhile_cons_of_neg (by decide), List.append_nil]

theorem readValue_eq {key : CString} {n : HostName} (h : db key = some (textValue n.text)) :
    readValue db key val = some (some <| textValue n.text ++ val.drop (textValue n.text).length) := by
  have hfits : ¬cfBufSize < (textValue n.text).length := by
    have hn := n.fits
    rw [textValue, List.length_append, List.length_singleton]
    omega
  rw [readValue, DB.readDB, h]
  exact if_neg hfits

theorem IsDigest.take_three (h : IsDigest x) : x.take 3 = "SHA".toList ∨ x.take 3 = "MD5".toList := by
  have htake : x.take 3 = (x.take 4).take 3 := by rw [List.take_take]; rfl
  rw [htake]
  exact h.imp (congrArg <| List.take 3) (congrArg <| List.take 3)

theorem IsDigest.ne_nil (h : IsDigest x) : x ≠ [] := by
  rintro rfl
  cases h
  all_goals contradiction

theorem mem_concat_cons {a b : Char} {x y : CString} (hab : a ≠ b) : a :: x ∈ keys ++ [b :: y] ↔ a :: x ∈ keys := by
  simp [hab]

theorem exists_concat {a : Char} {p : CString → Prop} :
    (∃ y, a :: y ∈ keys ++ [a :: x] ∧ p y) ↔ (∃ y, a :: y ∈ keys ∧ p y) ∨ p x := by
  simp only [List.mem_append, List.mem_singleton, List.cons.injEq, true_and, or_and_right, exists_or, exists_eq_left]

variable {c : Coherence}

theorem Collected.forward (h : Collected db keys c) (hdb : HoldsNames db) {value : Buffer} (hx : db ('k' :: x) = some value) :
    ∃ c', coherenceOfKey db c ('k' :: x) = some c' ∧ Collected db (keys ++ ['k' :: x]) c' := by
  obtain ⟨hdigest, host, hne, rfl⟩ := hdb.forward x value hx
  have htake : ('k' :: x).take 4 = "kSHA".toList ∨ ('k' :: x).take 4 = "kMD5".toList :=
    hdigest.take_three.imp (congrArg ('k' :: ·)) (congrArg ('k' :: ·))
  have hstep : coherenceOfKey db c ('k' :: x) = some { c with
      kkeys  := addItem c.kkeys x
      khosts := addItem c.khosts host.text
      val    := textValue host.text ++ c.val.drop (textValue host.text).length } := by
    rw [coherenceOfKey, if_neg (by simp), if_pos List.head?_cons, if_pos htake, readValue_eq hx, Option.map_some]
    dsimp only
    rw [toCString_readValue]
    rfl
  refine ⟨_, hstep, ?_, ?_, ?_, ?_⟩
  case refine_1 => exact (h.kkeys.add hdigest.ne_nil).congr fun y => by simp
  case refine_2 =>
    refine (h.khosts.add hne).congr fun y => ?_
    rw [exists_concat, hx, Option.some_inj, textValue, textValue, List.append_cancel_right_eq, eq_comm]
  case refine_3 => exact h.ahosts.congr fun y => (mem_concat_cons (by decide)).symm
  case refine_4 => exact h.akeys.congr fun y => by simp only [mem_concat_cons (by decide : 'a' ≠ 'k')]

theorem Collected.reverse (h : Collected db keys c) (hdb : HoldsNames db) {value : Buffer} (hx : db ('a' :: x) = some value) :
    ∃ c', coherenceOfKey db c ('a' :: x) = some c' ∧ Collected db (keys ++ ['a' :: x]) c' := by
  obtain ⟨hne, digest, hdigest, rfl⟩ := hdb.reverse x value hx
  have hstep : coherenceOfKey db c ('a' :: x) = some { c with
      ahosts := addItem c.ahosts x
      akeys  := addItem c.akeys digest.text
      val    := textValue digest.text ++ c.val.drop (textValue digest.text).length } := by
    rw [coherenceOfKey, if_neg (by simp), if_neg (by simp), if_pos List.head?_cons, readValue_eq hx, Option.map_some]
    dsimp only
    rw [toCString_readValue]
    rfl
  refine ⟨_, hstep, ?_, ?_, ?_, ?_⟩
  case refine_1 => exact h.kkeys.congr fun y => (mem_concat_cons (by decide)).symm
  case refine_2 => exact h.khosts.congr fun y => by simp only [mem_concat_cons (by decide : 'k' ≠ 'a')]
  case refine_3 => exact (h.ahosts.add hne).congr fun y => by simp
  case refine_4 =>
    refine (h.akeys.add hdigest.ne_nil).congr fun y => ?_
    rw [exists_concat, hx, Option.some_inj, textValue, textValue, List.append_cancel_right_eq, eq_comm]

-- The other keys are not about the names of hosts and digests.
theorem Collected.other (h : Collected db keys c) {key : CString} (hk : key.head? ≠ some 'k') (ha : key.head? ≠ some 'a') :
    ∃ c', coherenceOfKey db c key = some c' ∧ Collected db (keys ++ [key]) c' := by
  have hkey {x : CString} : 'k' :: x ≠ key := fun he => hk <| he ▸ rfl
  have hkey' {x : CString} : 'a' :: x ≠ key := fun he => ha <| he ▸ rfl
  have hlists : Collected db (keys ++ [key]) c := by
    refine ⟨h.kkeys.congr fun y => ?_, h.khosts.congr fun y => ?_, h.ahosts.congr fun y => ?_, h.akeys.congr fun y => ?_⟩
    all_goals simp [hkey, hkey']
  rw [coherenceOfKey, if_neg hk, if_neg ha]
  split
  case isTrue  =>
    split
    case isTrue  => exact ⟨_, rfl, hlists.kkeys, hlists.khosts, hlists.ahosts, hlists.akeys⟩
    case isFalse => exact ⟨c, rfl, hlists⟩
  case isFalse => exact ⟨c, rfl, hlists⟩

theorem collected (hdb : HoldsNames db) (hkeys : ∀ key ∈ keys, (db key).isSome) (val : Buffer) :
    ∃ c, keys.foldlM (coherenceOfKey db) (Coherence.init val) = some c ∧ Collected db keys c := by
  induction keys using List.reverseRecOn
  case nil                        =>
    have hnil {p : CString → Prop} (hp : ∀ x, ¬p x) : Lists [] p := ⟨List.nodup_nil, fun x => iff_of_false List.not_mem_nil (hp x)⟩
    exact ⟨Coherence.init val, rfl, hnil (by simp), hnil (by simp), hnil (by simp), hnil (by simp)⟩
  case append_singleton keys key ih =>
    have ⟨c, hfold, hc⟩ := ih fun k hk => hkeys k <| List.mem_append_left _ hk
    have ⟨value, hvalue⟩ := Option.isSome_iff_exists.mp <| hkeys key <| List.mem_append_right _ List.mem_cons_self
    have ⟨c', hstep, hc'⟩ : ∃ c', coherenceOfKey db c key = some c' ∧ Collected db (keys ++ [key]) c' := by
      by_cases hk : key.head? = some 'k'
      case pos =>
        have ⟨x, hx⟩ := List.head?_eq_some_iff.mp hk
        subst hx
        exact hc.forward hdb hvalue
      case neg =>
        by_cases ha : key.head? = some 'a'
        case pos =>
          have ⟨x, hx⟩ := List.head?_eq_some_iff.mp ha
          subst hx
          exact hc.reverse hdb hvalue
        case neg => exact hc.other hk ha
    refine ⟨c', ?_, hc'⟩
    simp only [List.foldlM_append, hfold, List.foldlM_cons, hstep, List.foldlM_nil, Option.bind_eq_bind, Option.bind_some]
    rfl

-- The names on both sides are compared, and nothing else is.
theorem isLastSeenCoherent_eq (hdb : HoldsNames db) (hvisits : VisitsEntries keys db) (val : Buffer) :
    ∃ b, isLastSeenCoherent db keys val = some b ∧ (b ↔ SameNames db) := by
  have ⟨c, hfold, hc⟩ := collected hdb (fun key hkey => (hvisits.right key).mp hkey) val
  refine ⟨_, by rw [isLastSeenCoherent, hfold]; rfl, ?_⟩
  have hmem {key : CString} : key ∈ keys ↔ (db key).isSome := hvisits.right key
  have hsome {key value : CString} : key ∈ keys ∧ db key = some value ↔ db key = some value :=
    and_iff_right_of_imp fun h => hmem.mpr <| h ▸ rfl
  have hhosts : [] ∉ c.ahosts := fun hnil => by
    have ⟨value, hvalue⟩ := Option.isSome_iff_exists.mp <| hmem.mp <| (hc.ahosts.right []).mp hnil
    exact (hdb.reverse [] value hvalue).left rfl
  have hkeys : [] ∉ c.akeys := fun hnil => by
    have ⟨host, _, hvalue⟩ := (hc.akeys.right []).mp hnil
    obtain ⟨_, digest, hdigest, he⟩ := hdb.reverse host _ hvalue
    exact hdigest.ne_nil <| (List.append_cancel_right he).symm
  rw [Bool.and_eq_true, listsCompare_iff hc.ahosts.left hc.khosts.left hhosts, listsCompare_iff hc.akeys.left hc.kkeys.left hkeys]
  simp only [hc.ahosts.right, hc.khosts.right, hc.akeys.right, hc.kkeys.right, hsome]
  simp only [hmem]
  exact ⟨fun h => ⟨h.left, fun digest => (h.right digest).symm⟩, fun h => ⟨h.hosts, fun digest => (h.digests digest).symm⟩⟩

theorem textValue_injective {x y : CString} (h : textValue x = textValue y) : x = y :=
  List.append_cancel_right h

theorem Coherent.sameNames (hdb : HoldsNames db) (h : Coherent db) : SameNames db where
  hosts   := by
    intro host
    constructor
    case mp  =>
      intro hsome
      have ⟨value, hvalue⟩ := Option.isSome_iff_exists.mp hsome
      obtain ⟨_, digest, _, rfl⟩ := hdb.reverse host value hvalue
      exact ⟨digest.text, (h _ _).mpr hvalue⟩
    case mpr =>
      intro ⟨digest, hdigest⟩
      rw [(h _ _).mp hdigest]
      rfl
  digests := by
    intro digest
    constructor
    case mp  =>
      intro hsome
      have ⟨value, hvalue⟩ := Option.isSome_iff_exists.mp hsome
      obtain ⟨_, host, _, rfl⟩ := hdb.forward digest value hvalue
      exact ⟨host.text, (h _ _).mp hvalue⟩
    case mpr =>
      intro ⟨host, hhost⟩
      rw [(h _ _).mpr hhost]
      rfl

theorem Coherent.not_crossed (h : Coherent db) : ¬Crossed db := by
  intro ⟨digest, host, digest', hforward, hreverse, hne⟩
  have hback := (h _ _).mp hforward
  exact hne <| textValue_injective <| Option.some.inj <| hback.symm.trans hreverse

-- The names of two sides on which no entries are crossed belong to each other.
theorem SameNames.coherent (hdb : HoldsNames db) (hsame : SameNames db) (hcrossed : ¬Crossed db) : Coherent db := by
  have hback {digest host : CString} (h : db ('k' :: digest) = some (textValue host)) :
      db ('a' :: host) = some (textValue digest) := by
    have ⟨value, hvalue⟩ := Option.isSome_iff_exists.mp <| (hsame.hosts host).mpr ⟨digest, h⟩
    obtain ⟨_, digest', _, rfl⟩ := hdb.reverse host value hvalue
    by_contra hne
    exact hcrossed ⟨digest, host, digest'.text, h, hvalue, fun he => hne <| he ▸ hvalue⟩
  intro digest host
  refine ⟨hback, fun h => ?_⟩
  -- The host is entered for some digest, to which its own entry leads back.
  have ⟨digest', hdigest'⟩ := (hsame.hosts host).mp <| by rw [h]; rfl
  have he : digest' = digest := textValue_injective <| Option.some.inj <| (hback hdigest').symm.trans h
  rwa [he] at hdigest'

end

end LastSeen

-- The test of the names is one of the entries unless a host's entries are crossed although all names are known.
theorem isLastSeenCoherent_iff (db : LastSeenDB) (keys : List CString) (val : Buffer) (hdb : LastSeen.HoldsNames db)
    (hvisits : LastSeen.VisitsEntries keys db) :
    (∃ b, LastSeen.isLastSeenCoherent db keys val = some b ∧ (b ↔ LastSeen.Coherent db)) ↔
      ¬(LastSeen.SameNames db ∧ LastSeen.Crossed db) := by
  have ⟨b, hresult, hb⟩ := LastSeen.isLastSeenCoherent_eq hdb hvisits val
  constructor
  case mp  =>
    intro ⟨b', hresult', hb'⟩ ⟨hsame, hcrossed⟩
    obtain rfl : b = b' := Option.some.inj <| hresult.symm.trans hresult'
    exact (hb'.mp <| hb.mpr hsame).not_crossed hcrossed
  case mpr =>
    intro hnot
    refine ⟨b, hresult, hb.trans ⟨fun hsame => ?_, fun hcoherent => hcoherent.sameNames hdb⟩⟩
    exact hsame.coherent hdb fun hcrossed => hnot ⟨hsame, hcrossed⟩

namespace LastSeen

-- Two hosts that know the digests, each its own or the other's.
def twoHosts (digest₁ digest₂ : CString) : LastSeenDB
  | ['k', 'S', 'H', 'A', '=', '1'] => some <| textValue ['x']
  | ['k', 'S', 'H', 'A', '=', '2'] => some <| textValue ['y']
  | ['a', 'x']                     => some <| textValue digest₁
  | ['a', 'y']                     => some <| textValue digest₂
  | _                              => none

def twoHostsKeys : List CString :=
  [['k', 'S', 'H', 'A', '=', '1'], ['k', 'S', 'H', 'A', '=', '2'], ['a', 'x'], ['a', 'y']]

theorem holdsNames_twoHosts {d₁ d₂ : HostName} (h₁ : IsDigest d₁.text) (h₂ : IsDigest d₂.text) :
    HoldsNames (twoHosts d₁.text d₂.text) where
  forward := by
    intro text value h
    unfold twoHosts at h
    split at h
    case h_1 he =>
      rw [(List.cons.inj he).right]
      exact ⟨.inl rfl, ⟨['x'], by decide, by decide⟩, by decide, (Option.some.inj h).symm⟩
    case h_2 he =>
      rw [(List.cons.inj he).right]
      exact ⟨.inl rfl, ⟨['y'], by decide, by decide⟩, by decide, (Option.some.inj h).symm⟩
    case h_3 he => cases he
    case h_4 he => cases he
    case h_5    => cases h
  reverse := by
    intro text value h
    unfold twoHosts at h
    split at h
    case h_1 he => cases he
    case h_2 he => cases he
    case h_3 he =>
      rw [(List.cons.inj he).right]
      exact ⟨by decide, d₁, h₁, (Option.some.inj h).symm⟩
    case h_4 he =>
      rw [(List.cons.inj he).right]
      exact ⟨by decide, d₂, h₂, (Option.some.inj h).symm⟩
    case h_5    => cases h

theorem visits_twoHosts {digest₁ digest₂ : CString} : VisitsEntries twoHostsKeys (twoHosts digest₁ digest₂) := by
  refine ⟨by decide, fun key => ?_⟩
  unfold twoHosts twoHostsKeys
  split
  all_goals simp_all

def digestOne : HostName :=
  ⟨['S', 'H', 'A', '=', '1'], by decide, by decide⟩

def digestTwo : HostName :=
  ⟨['S', 'H', 'A', '=', '2'], by decide, by decide⟩

theorem isLastSeenCoherent_twoHosts :
    ∃ b, isLastSeenCoherent (twoHosts digestOne.text digestTwo.text) twoHostsKeys [] = some b ∧
      (b ↔ Coherent (twoHosts digestOne.text digestTwo.text)) := by
  refine (isLastSeenCoherent_iff _ _ _ (holdsNames_twoHosts (.inl rfl) (.inl rfl)) visits_twoHosts).mpr ?_
  rintro ⟨-, digest, host, digest', hk, ha, hne⟩
  unfold twoHosts at hk
  split at hk
  case h_1 he =>
    cases he
    cases textValue_injective <| Option.some.inj hk
    exact hne <| textValue_injective <| Option.some.inj ha
  case h_2 he =>
    cases he
    cases textValue_injective <| Option.some.inj hk
    exact hne <| textValue_injective <| Option.some.inj ha
  case h_3 he => cases he
  case h_4 he => cases he
  case h_5    => cases hk

-- The digests of the two hosts are known on both sides, but each address leads to the other one's.
theorem not_isLastSeenCoherent_iff : ¬∀ (db : LastSeenDB) (keys : List CString) (val : Buffer), HoldsNames db → VisitsEntries keys db →
    ∃ b, isLastSeenCoherent db keys val = some b ∧ (b ↔ Coherent db) := by
  intro h
  have ⟨b, hresult, hb⟩ := h (twoHosts digestTwo.text digestOne.text) twoHostsKeys []
    (holdsNames_twoHosts (.inl rfl) (.inl rfl)) visits_twoHosts
  have htrue : isLastSeenCoherent (twoHosts digestTwo.text digestOne.text) twoHostsKeys [] = some true := by decide
  obtain rfl : true = b := Option.some.inj <| htrue.symm.trans hresult
  have hback := (hb.mp rfl ['S', 'H', 'A', '=', '1'] ['x']).mp rfl
  exact absurd hback (by decide)

end LastSeen

end CfEngine
