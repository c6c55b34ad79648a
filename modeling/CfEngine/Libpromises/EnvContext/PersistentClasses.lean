import CfEngine.Libpromises.EnvContext.ClassDeletion

namespace CfEngine

def IsNamespace (ns : CString) : Prop :=
  ns ≠ [] ∧ cfNs ∉ ns

-- A class in a namespace whose qualified name fits into the buffers.
structure NamespaceClass where
  ns           : CString
  name         : CString
  isNamespace  : IsNamespace ns
  isIdentifier : IsIdentifier name
  fits         : ns.length + 1 + name.length < cfMaxVarSize - 1

namespace NamespaceClass

def key (c : NamespaceClass) : CString :=
  c.ns ++ cfNs :: c.name

def qualified (c : NamespaceClass) : CString :=
  qualifiedBy (some c.ns) c.name

end NamespaceClass

-- The class that is defined when a key is loaded.
def loadedClass (key : CString) : CString :=
  let (ns, name) := if cfNs ∈ key then (some (scanKey key).1, (scanKey key).2) else (none, key)
  (qualifiedBy ns <| canonifyNameInPlace <| chop name cfExpandSize).take (cfMaxVarSize - 1)

-- An operation on the store that does not concern the class.
inductive StoreStep (pcre : CString → CString → Bool) (c : NamespaceClass) (now : Nat) :
    StateDb → StateDb → Prop
  | add {db db' ctx ctx' ns list persist policy scope} : IsNamespace ns →
    (∀ item ∈ list, item ≠ [] ∧ ¬(ns = c.ns ∧ canonifyNameInPlace item = c.name)) →
    EvalContext.addAllClasses pcre db now ctx ns list persist policy scope = some (ctx', db') →
    StoreStep pcre c now db db'
  | delete {db db' ctx ctx' list} : (∀ item ∈ list, item ≠ c.name ∧ item ≠ c.key) →
    EvalContext.deleteAllClasses db ctx list = some (ctx', db') → StoreStep pcre c now db db'
  | load {db db' ctx ctx'} :
    EvalContext.evalContextHeapPersistentLoadAll pcre ctx db now = some (ctx', db') →
    StoreStep pcre c now db db'

-- A history of such operations between two times.
inductive StoreHistory (pcre : CString → CString → Bool) (c : NamespaceClass) :
    Nat → StateDb → Nat → StateDb → Prop
  | wait {t t' db} : t ≤ t' → StoreHistory pcre c t db t' db
  | step {t now t' db db₁ db'} : t ≤ now → StoreStep pcre c now db db₁ →
    StoreHistory pcre c now db₁ t' db' → StoreHistory pcre c t db t' db'

-- A key that `EvalContextHeapPersistentSave` is given by `AddAllClasses`.
def IsPersistentKey (key : CString) : Prop :=
  ∃ ns name, key = persistentKey name ns ∧ IsNamespace ns ∧ IsIdentifier name

section

variable {key name ns : CString} {db db' : StateDb} {now ttl : Nat} {policy : ContextStatePolicy}

theorem lookup_removeExpired :
    (EvalContext.removeExpired db now).lookup key = (db.lookup key).filter (now ≤ ·.expires) := by
  apply Option.ext
  intro s
  rw [←Option.mem_def, AList.mem_lookup_iff, Option.filter_eq_some_iff, ←Option.mem_def,
    AList.mem_lookup_iff]
  simp [EvalContext.removeExpired]

theorem mem_of_mem_removeExpired (h : key ∈ EvalContext.removeExpired db now) : key ∈ db := by
  rw [←AList.lookup_isSome, lookup_removeExpired] at h
  rw [←AList.lookup_isSome]
  exact Option.isSome_of_isSome_filter _ _ h

theorem save_cases (db : StateDb) (now : Nat) (name ns : CString) (ttl : Nat)
    (policy : ContextStatePolicy) : evalContextHeapPersistentSave db now name ns ttl policy = db ∨
    evalContextHeapPersistentSave db now name ns ttl policy =
      db.insert (persistentKey name ns) { expires := expiryTime now ttl, policy } := by
  simp only [evalContextHeapPersistentSave]
  split
  case h_2 => exact .inr rfl
  case h_1 =>
    split
    case isTrue  => exact .inl rfl
    case isFalse => exact .inr rfl

theorem lookup_save_of_ne (h : key ≠ persistentKey name ns) :
    (evalContextHeapPersistentSave db now name ns ttl policy).lookup key = db.lookup key := by
  cases save_cases db now name ns ttl policy
  case inl hs => rw [hs]
  case inr hs => rw [hs, AList.lookup_insert_ne h]

theorem mem_of_mem_save (h : key ∈ evalContextHeapPersistentSave db now name ns ttl policy) :
    key = persistentKey name ns ∨ key ∈ db := by
  cases save_cases db now name ns ttl policy
  case inl hs => exact .inr <| hs ▸ h
  case inr hs => exact AList.mem_insert _ |>.mp <| hs ▸ h

theorem isIdentifier_canonifyNameInPlace {item : CString} (h : item ≠ []) :
    IsIdentifier (canonifyNameInPlace item) := by
  refine ⟨by simpa [canonifyNameInPlace] using h, fun x hx => ?_⟩
  have ⟨y, _, hy⟩ := List.mem_map.mp hx
  split at hy
  case isTrue  => exact .inr hy.symm
  case isFalse hc =>
    simp only [Bool.or_eq_true, Bool.not_eq_true', decide_eq_true_eq, not_or] at hc
    exact .inl <| hy ▸ Bool.not_eq_false _ ▸ hc.left

end

section

variable {pcre : CString → CString → Bool} {c : NamespaceClass} {ctx ctx' : EvalContext}
  {db db' : StateDb} {list : List CString} {ns : CString} {now : Nat}

-- What holds of the store and is preserved by each save holds after all of them.
theorem addAllClasses_invariant {persist : Bool} {policy : ContextStatePolicy} {scope : ContextScope}
    {I : StateDb → Prop} (hi : I db)
    (hs : ∀ item ∈ list, ∀ db, I db → I (evalContextHeapPersistentSave db now
      (canonifyNameInPlace item) ns persist.toNat policy))
    (h : EvalContext.addAllClasses pcre db now ctx ns list persist policy scope = some (ctx', db')) :
    I db' := by
  induction list generalizing ctx db
  case nil =>
    cases Option.some.inj h
    exact hi
  case cons item list ih =>
    have ⟨hitem, hs⟩ := List.forall_mem_cons.mp hs
    simp only [EvalContext.addAllClasses] at h
    split at h
    case isFalse =>
      have ⟨ctx₁, _, h⟩ := Option.bind_eq_some_iff.mp h
      exact ih hi hs h
    case isTrue =>
      have ⟨name, hname, h⟩ := Option.bind_eq_some_iff.mp h
      have ⟨ctx₁, _, h⟩ := Option.bind_eq_some_iff.mp h
      have hn : name = canonifyNameInPlace item := by
        simp only [canonifyName] at hname
        split at hname
        case isTrue  => exact (Option.some.inj hname).symm
        case isFalse => contradiction
      exact ih (hn ▸ hitem db hi) hs h

theorem deleteAllClasses_invariant {I : StateDb → Prop} (hi : I db)
    (hs : ∀ item ∈ list, ∀ db, I db → I (db.erase item))
    (h : EvalContext.deleteAllClasses db ctx list = some (ctx', db')) : I db' := by
  induction list generalizing ctx db
  case nil =>
    cases Option.some.inj h
    exact hi
  case cons item list ih =>
    obtain ⟨hitem, hs⟩ := List.forall_mem_cons.mp hs
    simp only [EvalContext.deleteAllClasses] at h
    split at h
    case isFalse =>
      cases Option.some.inj h
      exact hi
    case isTrue =>
      obtain ⟨name, _, h⟩ := Option.bind_eq_some_iff.mp h
      obtain ⟨ctx₁, _, h⟩ := Option.bind_eq_some_iff.mp h
      exact ih (hitem db hi) hs h

theorem loadAll_store
    (h : EvalContext.evalContextHeapPersistentLoadAll pcre ctx db now = some (ctx', db')) :
    db' = EvalContext.removeExpired db now := by
  have ⟨_, _, h⟩ := Option.bind_eq_some_iff.mp h
  exact (Prod.mk.inj <| Option.some.inj h).right.symm

namespace NamespaceClass

theorem not_mem_name (c : NamespaceClass) : cfNs ∉ c.name :=
  c.isIdentifier.not_mem

theorem length_key_lt (c : NamespaceClass) : c.key.length < cfMaxVarSize - 1 := by
  have := c.fits
  simp only [key, List.length_append, List.length_cons]
  omega

theorem key_eq_persistentKey (c : NamespaceClass) : c.key = persistentKey c.name c.ns := by
  have := c.length_key_lt
  exact (List.take_of_length_le <| Nat.le_trans (Nat.le_of_lt this) <| by decide).symm

theorem key_inj {name : CString} (h : c.key = ns ++ cfNs :: name) : ns = c.ns ∧ name = c.name := by
  have ⟨hns, _, hname⟩ := (List.append_cons_inj_of_notMem c.isNamespace.right c.not_mem_name).mp h
  exact ⟨hns.symm, hname.symm⟩

theorem qualified_ne_nil (c : NamespaceClass) : c.qualified ≠ [] := by
  simp only [qualified, qualifiedBy]
  split
  case isTrue  => simp
  case isFalse => exact c.isIdentifier.left

theorem length_qualified_lt (c : NamespaceClass) : c.qualified.length < cfMaxVarSize - 1 := by
  have := c.fits
  simp only [qualified, qualifiedBy]
  split
  case isTrue  => exact c.length_key_lt
  case isFalse => omega

-- No other class of a namespace is given the same name.
theorem qualified_inj {name : CString} (hn : cfNs ∉ name)
    (h : c.qualified = qualifiedBy (some ns) name) : c.key = ns ++ cfNs :: name := by
  simp only [qualified, qualifiedBy] at h
  split at h
  case isTrue hd =>
    split at h
    case isTrue  => exact h
    case isFalse => exact absurd (h ▸ List.mem_append_right c.ns List.mem_cons_self) hn
  case isFalse hd =>
    split at h
    case isTrue =>
      exact absurd (h ▸ List.mem_append_right ns List.mem_cons_self) c.not_mem_name
    case isFalse hd' =>
      rw [key, h, Decidable.not_not.mp hd, Decidable.not_not.mp hd']

end NamespaceClass

theorem length_take_lt {l : List Char} {m : Nat} (h : (l.take m).length < m) : l.take m = l := by
  rw [List.length_take] at h
  exact List.take_of_length_le <| by omega

theorem persistentKey_inj {name : CString} (h : c.key = persistentKey name ns) :
    ns = c.ns ∧ name = c.name := by
  have hlen := c.length_key_lt
  rw [h] at hlen
  have hlt : (persistentKey name ns).length < cfBufSize - 1 := Nat.lt_trans hlen <| by decide
  exact NamespaceClass.key_inj <| h.trans <| length_take_lt hlt

namespace StoreStep

theorem lookup (h : StoreStep pcre c now db db') :
    (∀ s, db'.lookup c.key = some s → db.lookup c.key = some s) ∧
    ∀ s, db.lookup c.key = some s → now ≤ s.expires → db'.lookup c.key = some s := by
  cases h
  case add hn hl h =>
    have he : db'.lookup c.key = db.lookup c.key := by
      apply addAllClasses_invariant (I := fun db' => db'.lookup c.key = db.lookup c.key) rfl ?_ h
      intro item hitem db' he
      rw [lookup_save_of_ne, he]
      intro hk
      have ⟨hns, hname⟩ := persistentKey_inj hk
      exact (hl item hitem).right ⟨hns, hname⟩
    exact ⟨fun s => he ▸ id, fun s hs _ => he ▸ hs⟩
  case delete hl h =>
    have he : db'.lookup c.key = db.lookup c.key := by
      apply deleteAllClasses_invariant (I := fun db' => db'.lookup c.key = db.lookup c.key) rfl ?_ h
      intro item hitem db' he
      rw [AList.lookup_erase_ne <| Ne.symm (hl item hitem).right, he]
    exact ⟨fun s => he ▸ id, fun s hs _ => he ▸ hs⟩
  case load h =>
    rw [loadAll_store h, lookup_removeExpired]
    refine ⟨fun s hs => (Option.filter_eq_some_iff.mp hs).left, fun s hs ht => ?_⟩
    exact Option.filter_eq_some_iff.mpr ⟨hs, decide_eq_true ht⟩

theorem isPersistentKey (h : StoreStep pcre c now db db') (hk : ∀ key ∈ db, IsPersistentKey key) :
    ∀ key ∈ db', IsPersistentKey key := by
  cases h
  case add hn hl h =>
    apply addAllClasses_invariant (I := fun db => ∀ key ∈ db, IsPersistentKey key) hk ?_ h
    intro item hitem db hk key hkey
    cases mem_of_mem_save hkey
    case inr hkey => exact hk key hkey
    case inl hkey =>
      have hident := isIdentifier_canonifyNameInPlace (hl item hitem).left
      exact ⟨_, _, hkey, hn, hident⟩
  case delete h =>
    apply deleteAllClasses_invariant (I := fun db => ∀ key ∈ db, IsPersistentKey key) hk ?_ h
    exact fun item _ db hk key hkey => hk key (AList.mem_erase.mp hkey).right
  case load h =>
    rw [loadAll_store h]
    exact fun key hkey => hk key <| mem_of_mem_removeExpired hkey

end StoreStep

namespace StoreHistory

variable {t t' : Nat}

theorem le (h : StoreHistory pcre c t db t' db') : t ≤ t' := by
  induction h
  case wait h         => exact h
  case step h _ _ ih  => exact Nat.le_trans h ih

theorem lookup (h : StoreHistory pcre c t db t' db') :
    (∀ s, db'.lookup c.key = some s → db.lookup c.key = some s) ∧
    ∀ s, db.lookup c.key = some s → t' ≤ s.expires → db'.lookup c.key = some s := by
  induction h
  case wait => exact ⟨fun _ => id, fun _ hs _ => hs⟩
  case step hstep hh ih =>
    have ⟨hl, hr⟩ := hstep.lookup
    refine ⟨fun s hs => hl s <| ih.left s hs, fun s hs ht => ?_⟩
    exact ih.right s (hr s hs <| Nat.le_trans hh.le ht) ht

theorem isPersistentKey (h : StoreHistory pcre c t db t' db') (hk : ∀ key ∈ db, IsPersistentKey key) :
    ∀ key ∈ db', IsPersistentKey key := by
  induction h
  case wait           => exact hk
  case step hs _ ih   => exact ih <| hs.isPersistentKey hk

end StoreHistory
end

section

variable {pcre : CString → CString → Bool} {c : NamespaceClass} {ctx ctx' : EvalContext}
  {db db' : StateDb} {now : Nat} {key name ns : CString}

-- The parts of the key fit into the buffers that it is read into.
def Fits (key : CString) : Prop :=
  if cfNs ∈ key then
    (scanKey key).1.length < cfMaxVarSize ∧ (scanKey key).2.length < cfMaxVarSize
  else
    key.length < cfMaxVarSize

theorem evalContextHeapAddSoft_spec {context : CString} {ns : Option CString}
    (h : ctx.evalContextHeapAddSoft pcre context ns = some ctx') :
    context.length < cfMaxVarSize ∧ ∀ x, x ∈ ctx'.heapSoft ↔ x ∈ ctx.heapSoft ∨ x ≠ [] ∧
      x = (qualifiedBy ns <| canonifyNameInPlace <| chop context cfExpandSize).take
        (cfMaxVarSize - 1) := by
  simp only [EvalContext.evalContextHeapAddSoft] at h
  generalize (qualifiedBy ns <| canonifyNameInPlace <| chop context cfExpandSize).take
    (cfMaxVarSize - 1) = copy at h ⊢
  split at h
  case isTrue => contradiction
  case isFalse hlen =>
    refine ⟨Nat.lt_of_not_le hlen, fun x => ?_⟩
    simp only [Option.pure_def, Option.bind_eq_bind] at h
    split at h
    case isTrue hc =>
      cases Option.some.inj h
      grind
    case isFalse hc =>
      split at h
      case isTrue => contradiction
      case isFalse =>
        split at h
        case isTrue hm =>
          simp only [EvalContext.evalContextHeapContainsSoft, decide_eq_true_eq] at hm
          cases Option.some.inj h
          grind
        case isFalse =>
          split at h
          case isTrue => contradiction
          case isFalse =>
            cases Option.some.inj h
            simp only [Finset.mem_insert]
            grind

theorem loadEntry_spec {entry : (_ : CString) × CfState}
    (h : EvalContext.loadEntry pcre now ctx entry = some ctx') :
    (now ≤ entry.2.expires → Fits entry.1) ∧ ∀ x, x ∈ ctx'.heapSoft ↔ x ∈ ctx.heapSoft ∨
      x ≠ [] ∧ now ≤ entry.2.expires ∧ x = loadedClass entry.1 := by
  simp only [EvalContext.loadEntry] at h
  split at h
  case isTrue hx =>
    cases Option.some.inj h
    exact ⟨fun hc => absurd hx <| Nat.not_lt_of_le hc, by simp [Nat.not_le_of_lt hx]⟩
  case isFalse hx =>
    have hle := Nat.le_of_not_lt hx
    split at h
    case isTrue hm =>
      split at h
      case isFalse => contradiction
      case isTrue hf =>
        have ⟨_, hs⟩ := evalContextHeapAddSoft_spec h
        exact ⟨fun _ => by simpa [Fits, hm] using hf, by simpa [loadedClass, hm, hle] using hs⟩
    case isFalse hm =>
      have ⟨hf, hs⟩ := evalContextHeapAddSoft_spec h
      exact ⟨fun _ => by simpa [Fits, hm] using hf, by simpa [loadedClass, hm, hle] using hs⟩

-- The classes that are defined after the entries have been loaded.
theorem loadAll_spec
    (h : EvalContext.evalContextHeapPersistentLoadAll pcre ctx db now = some (ctx', db')) :
    (∀ key s, db.lookup key = some s → now ≤ s.expires → Fits key) ∧
    ∀ x, x ∈ ctx'.heapSoft ↔ x ∈ ctx.heapSoft ∨
      x ≠ [] ∧ ∃ key s, db.lookup key = some s ∧ now ≤ s.expires ∧ x = loadedClass key := by
  have ⟨ctx₁, hfold, h⟩ := Option.bind_eq_some_iff.mp h
  cases (Prod.mk.inj <| Option.some.inj h).left
  suffices hs : ∀ entries ctx, List.foldlM (EvalContext.loadEntry pcre now) ctx entries = some ctx' →
      (∀ e ∈ entries, now ≤ e.2.expires → Fits e.1) ∧ ∀ x, x ∈ ctx'.heapSoft ↔ x ∈ ctx.heapSoft ∨
        x ≠ [] ∧ ∃ e ∈ entries, now ≤ e.2.expires ∧ x = loadedClass e.1 by
    have ⟨hf, hx⟩ := hs _ _ hfold
    have hmem (key s) : db.lookup key = some s ↔ ⟨key, s⟩ ∈ db.entries := AList.mem_lookup_iff
    refine ⟨fun key s hk => hf ⟨key, s⟩ <| (hmem key s).mp hk, fun x => ?_⟩
    simp only [hx, hmem, Sigma.exists]
  intro entries
  induction entries
  case nil =>
    intro ctx h
    cases Option.some.inj h
    simp
  case cons entry entries ih =>
    intro ctx h
    rw [List.foldlM_cons] at h
    have ⟨ctx₁, he, h⟩ := Option.bind_eq_some_iff.mp h
    have ⟨hfit, hx⟩ := loadEntry_spec he
    have ⟨hfits, hxs⟩ := ih ctx₁ h
    refine ⟨List.forall_mem_cons.mpr ⟨hfit, hfits⟩, fun x => ?_⟩
    rw [hxs x, hx x]
    simp only [List.mem_cons, exists_eq_or_imp]
    grind

theorem scanKey_append (hn : IsNamespace ns) (hl : '\n' ∉ name) :
    scanKey (ns ++ cfNs :: name) = (ns, name) := by
  have hns : (ns ++ cfNs :: name).takeWhile (· ≠ cfNs) = ns := by
    have hpos : ∀ x ∈ ns, decide (x ≠ cfNs) = true := by
      intro x hx
      exact decide_eq_true fun hc => hn.right <| hc ▸ hx
    rw [List.takeWhile_append_of_pos hpos]
    simp
  have hname : name.takeWhile (· ≠ '\n') = name :=
    List.takeWhile_eq_self_iff.mpr fun x hx => decide_eq_true fun hc => hl (hc ▸ hx)
  have hdrop : (ns ++ cfNs :: name).drop (ns.length + 1) = name := by
    rw [←List.drop_drop, List.drop_left, List.drop_one, List.tail_cons]
  simp only [scanKey, hns, if_neg hn.left, hdrop, hname]

theorem not_isAlphanum_of_isspace {x : Char} (h : isspace x = true) :
    ¬(x.isAlphanum ∨ x = '_') := by
  simp only [isspace, decide_eq_true_eq, List.mem_cons, List.not_mem_nil, or_false] at h
  rcases h with rfl | rfl | rfl | rfl | rfl | rfl <;> decide

theorem IsIdentifier.chop (h : IsIdentifier name) {n : Nat} : chop name n = name := by
  simp only [CfEngine.chop]
  split
  case isTrue  => rfl
  case isFalse =>
    apply List.rdropWhile_eq_self_iff.mpr
    intro hl hs
    have hx := h.right _ <| List.getLast_mem hl
    generalize name.getLast hl = x at hs hx
    exact absurd hx <| not_isAlphanum_of_isspace hs

-- A key that is loaded stands for the class that it was made of.
theorem IsPersistentKey.loadedClass_eq (hk : IsPersistentKey key) (hf : Fits key) :
    ∃ ns name, key = ns ++ cfNs :: name ∧ IsIdentifier name ∧
      loadedClass key = (qualifiedBy (some ns) name).take (cfMaxVarSize - 1) := by
  have ⟨ns, name, he, hn, hi⟩ := hk
  have hline {l : CString} (h : ∀ x ∈ l, x ∈ name) : '\n' ∉ l := by
    intro hc
    have := hi.right _ <| h _ hc
    contradiction
  cases Nat.lt_or_ge ns.length (cfBufSize - 1)
  case inr hlen =>
    have hkey : key = ns.take (cfBufSize - 1) := by
      rw [he, persistentKey, List.take_append_of_le_length hlen]
    have hm : cfNs ∉ key := fun hc => hn.right <| List.mem_of_mem_take <| hkey ▸ hc
    simp only [Fits, hm, ite_false] at hf
    rw [hkey, List.length_take, Nat.min_eq_left hlen] at hf
    contradiction
  case inl hlen =>
    have ⟨m, hm⟩ := Nat.exists_eq_add_of_lt hlen
    have hkey : key = ns ++ cfNs :: name.take m := by
      rw [he, persistentKey, hm, Nat.add_assoc, List.take_length_add_append, List.take_succ_cons]
    have hscan : scanKey key = (ns, name.take m) := by
      rw [hkey]
      exact scanKey_append hn <| hline fun x => List.mem_of_mem_take
    have hmem : cfNs ∈ key := hkey ▸ List.mem_append_right ns List.mem_cons_self
    simp only [Fits, hmem, hscan, ite_true] at hf
    have hname : name.take m = name := by
      apply length_take_lt <| Nat.lt_of_lt_of_le hf.right ?_
      simp only [cfBufSize, cfMaxVarSize] at hm hf ⊢
      omega
    rw [hname] at hkey hscan
    refine ⟨ns, name, hkey, hi, ?_⟩
    simp only [loadedClass, hmem, ite_true, hscan, hi.chop, hi.canonifyNameInPlace]

theorem NamespaceClass.loadedClass_key (c : NamespaceClass) : loadedClass c.key = c.qualified := by
  have hline : '\n' ∉ c.name := by
    intro hc
    have := c.isIdentifier.right _ hc
    contradiction
  have hmem : cfNs ∈ c.key := List.mem_append_right c.ns List.mem_cons_self
  have hscan : scanKey c.key = (c.ns, c.name) := scanKey_append c.isNamespace hline
  simp only [loadedClass, hmem, ite_true, hscan, c.isIdentifier.chop, c.isIdentifier.canonifyNameInPlace]
  exact List.take_of_length_le <| Nat.le_of_lt c.length_qualified_lt

-- Only the key of a class is loaded as this class.
theorem IsPersistentKey.eq_key (hk : IsPersistentKey key) (hf : Fits key)
    (h : c.qualified = loadedClass key) : key = c.key := by
  have ⟨ns, name, he, hi, hl⟩ := hk.loadedClass_eq hf
  have hlt := c.length_qualified_lt
  rw [h, hl] at hlt
  rw [hl, length_take_lt hlt] at h
  exact he.trans (NamespaceClass.qualified_inj hi.not_mem h).symm

end

section

variable {pcre : CString → CString → Bool} {c : NamespaceClass} {ctx ctx' : EvalContext}
  {db db₁ db' : StateDb} {t₀ t ttl : Nat} {policy : ContextStatePolicy}

-- The store after `AddAllClasses` has saved the class, in a history that has not concerned it before.
-- The time to live is given to the parameter `persist`.
def Saved (pcre : CString → CString → Bool) (c : NamespaceClass) (ttl : Nat)
    (policy : ContextStatePolicy) (t₀ : Nat) (db₁ : StateDb) : Prop :=
  ∃ t db ctx ctx' scope, StoreHistory pcre c t ∅ t₀ db ∧
    EvalContext.addAllClasses pcre db t₀ ctx c.ns [c.name] (ttl ≠ 0) policy scope = some (ctx', db₁)

-- The store after a history of operations on other classes, in which the class is cancelled once.
def Cancelled (pcre : CString → CString → Bool) (c : NamespaceClass) (t₀ : Nat) (db₁ : StateDb)
    (t : Nat) (db : StateDb) : Prop :=
  ∃ t₁ db₂ db₃ ctx ctx', StoreHistory pcre c t₀ db₁ t₁ db₂ ∧
    EvalContext.deleteAllClasses db₂ ctx [c.name] = some (ctx', db₃) ∧ StoreHistory pcre c t₁ db₃ t db

-- The class that is loaded from an entry with another key.
def LoadedFromOthers (c : NamespaceClass) (db : StateDb) (now : Nat) (x : CString) : Prop :=
  x ≠ [] ∧ ∃ key s, key ≠ c.key ∧ db.lookup key = some s ∧ now ≤ s.expires ∧ x = loadedClass key

theorem Saved.spec (h : Saved pcre c ttl policy t₀ db₁) (ht : ttl ≠ 0) :
    (∀ key ∈ db₁, IsPersistentKey key) ∧
    db₁.lookup c.key = some { expires := expiryTime t₀ 1, policy } := by
  have ⟨t, db, ctx, ctx', scope, hh, h⟩ := h
  have hk := hh.isPersistentKey fun key hkey => absurd hkey <| AList.notMem_empty key
  have hn : db.lookup c.key = none := by
    apply Option.eq_none_iff_forall_not_mem.mpr
    intro s hs
    have := hh.lookup.left s hs
    rw [AList.lookup_empty] at this
    contradiction
  have hdb : db₁ = evalContextHeapPersistentSave db t₀ c.name c.ns 1 policy := by
    simp only [EvalContext.addAllClasses, ne_eq, ht, not_false_eq_true, decide_true, ite_true] at h
    have ⟨name, hname, h⟩ := Option.bind_eq_some_iff.mp h
    have ⟨ctx₁, _, h⟩ := Option.bind_eq_some_iff.mp h
    simp only [canonifyName, c.isIdentifier.canonifyNameInPlace] at hname
    split at hname
    case isFalse => contradiction
    case isTrue =>
      cases Option.some.inj hname
      exact (Prod.mk.inj <| Option.some.inj h).right.symm
  rw [hdb]
  constructor
  case left =>
    intro key hkey
    cases mem_of_mem_save hkey
    case inr hkey => exact hk key hkey
    case inl hkey => exact ⟨c.ns, c.name, hkey, c.isNamespace, c.isIdentifier⟩
  case right =>
    rw [c.key_eq_persistentKey] at hn ⊢
    simp only [evalContextHeapPersistentSave, hn, AList.lookup_insert]

theorem Cancelled.lookup (h : Cancelled pcre c t₀ db₁ t db) :
    (∀ s, db.lookup c.key = some s → db₁.lookup c.key = some s) ∧
    ∀ s, db₁.lookup c.key = some s → t ≤ s.expires → db.lookup c.key = some s := by
  have ⟨t₁, db₂, db₃, ctx, ctx', hh, h, hh'⟩ := h
  have hlookup : db₃.lookup c.key = db₂.lookup c.key := by
    apply deleteAllClasses_invariant (I := fun db => db.lookup c.key = db₂.lookup c.key) rfl ?_ h
    intro item hitem db he
    have hne : c.key ≠ item := by
      intro hc
      have := congrArg List.length (hc.trans <| List.mem_singleton.mp hitem)
      simp only [NamespaceClass.key, List.length_append, List.length_cons] at this
      omega
    rw [AList.lookup_erase_ne hne, he]
  have ⟨hl, hr⟩ := hh.lookup
  have ⟨hl', hr'⟩ := hh'.lookup
  refine ⟨fun s hs => hl s <| hlookup ▸ hl' s hs, fun s hs ht => hr' s ?_ ht⟩
  exact hlookup ▸ hr s hs <| Nat.le_trans hh'.le ht

theorem Cancelled.isPersistentKey (h : Cancelled pcre c t₀ db₁ t db)
    (hk : ∀ key ∈ db₁, IsPersistentKey key) : ∀ key ∈ db, IsPersistentKey key := by
  have ⟨t₁, db₂, db₃, ctx, ctx', hh, h, hh'⟩ := h
  apply hh'.isPersistentKey
  apply deleteAllClasses_invariant (I := fun db => ∀ key ∈ db, IsPersistentKey key) ?_ ?_ h
  · exact hh.isPersistentKey hk
  · exact fun item _ db hk key hkey => hk key (AList.mem_erase.mp hkey).right

-- A store that holds the entry of the class until it expires.
theorem loadAll_classes {s : CfState} (hk : ∀ key ∈ db, IsPersistentKey key)
    (hl : ∀ s', db.lookup c.key = some s' → s' = s) (hr : t ≤ s.expires → db.lookup c.key = some s)
    (h : EvalContext.evalContextHeapPersistentLoadAll pcre ctx db t = some (ctx', db')) :
    (∀ x, x ∈ ctx'.heapSoft ↔ x ∈ ctx.heapSoft ∨ LoadedFromOthers c db t x ∨
      x = c.qualified ∧ t ≤ s.expires) ∧ ¬LoadedFromOthers c db t c.qualified := by
  have ⟨hf, hx⟩ := loadAll_spec h
  constructor
  case right =>
    intro ⟨_, key, s', hne, hs, ht, hc⟩
    have hmem : key ∈ db := AList.lookup_isSome.mp <| by rw [hs]; rfl
    exact hne <| (hk key hmem).eq_key (hf key s' hs ht) hc
  case left =>
    intro x
    rw [hx x]
    constructor
    case mp =>
      intro hx
      cases hx
      case inl hx => exact .inl hx
      case inr hx =>
        have ⟨hne, key, s', hs, ht, hc⟩ := hx
        cases Decidable.em (key = c.key)
        case inr hkey => exact .inr <| .inl ⟨hne, key, s', hkey, hs, ht, hc⟩
        case inl hkey =>
          subst hkey
          cases hl s' hs
          exact .inr <| .inr ⟨hc.trans c.loadedClass_key, ht⟩
    case mpr =>
      intro hx
      cases hx
      case inl hx => exact .inl hx
      case inr hx =>
        cases hx
        case inl hx =>
          have ⟨hne, key, s', _, hs, ht, hc⟩ := hx
          exact .inr ⟨hne, key, s', hs, ht, hc⟩
        case inr hx =>
          have ⟨hc, ht⟩ := hx
          refine .inr ⟨hc ▸ c.qualified_ne_nil, c.key, s, hr ht, ht, ?_⟩
          rw [hc, c.loadedClass_key]

-- A class that is not cancelled is defined until it expires, exactly if its time to live of one minute
-- makes no difference. A class that is cancelled stays undefined exactly if it has expired.
theorem persistentClass_iff (hs : Saved pcre c ttl policy t₀ db₁) (ht : ttl ≠ 0) :
    (∀ db ctx ctx' db', StoreHistory pcre c t₀ db₁ t db → c.qualified ∉ ctx.heapSoft →
      EvalContext.evalContextHeapPersistentLoadAll pcre ctx db t = some (ctx', db') →
      ((∀ x, x ∈ ctx'.heapSoft ↔ x ∈ ctx.heapSoft ∨ LoadedFromOthers c db t x ∨
        x = c.qualified ∧ t ≤ t₀ + ttl * 60) ↔ (t ≤ expiryTime t₀ 1 ↔ t ≤ t₀ + ttl * 60))) ∧
    ∀ db ctx ctx' db', Cancelled pcre c t₀ db₁ t db → c.qualified ∉ ctx.heapSoft →
      EvalContext.evalContextHeapPersistentLoadAll pcre ctx db t = some (ctx', db') →
      (c.qualified ∉ ctx'.heapSoft ↔ expiryTime t₀ 1 < t) := by
  have ⟨hk, hl⟩ := hs.spec ht
  constructor
  case left =>
    intro db ctx ctx' db' hh hn h
    have ⟨hx, hc⟩ := loadAll_classes (hh.isPersistentKey hk)
      (fun s hs => Option.some.inj <| (hh.lookup.left s hs).symm.trans hl) (hh.lookup.right _ hl) h
    constructor
    case mp =>
      intro ha
      have := (hx c.qualified).symm.trans (ha c.qualified)
      simpa only [hn, hc, false_or, true_and] using this
    case mpr =>
      intro he x
      rw [hx x, he]
  case right =>
    intro db ctx ctx' db' hh hn h
    have ⟨hx, hc⟩ := loadAll_classes (hh.isPersistentKey hk)
      (fun s hs => Option.some.inj <| (hh.lookup.left s hs).symm.trans hl) (hh.lookup.right _ hl) h
    rw [hx c.qualified]
    simp only [hn, hc, false_or, true_and, Nat.not_le]

end

def defaultA : NamespaceClass where
  ns           := defaultNs
  name         := ['a']
  isNamespace  := ⟨by decide, by decide⟩
  isIdentifier := by decide
  fits         := by decide

def storeOfA : StateDb :=
  AList.singleton defaultA.key { expires := 60, policy := .reset }

theorem saved_storeOfA : Saved (fun _ _ => false) defaultA 2 .reset 0 storeOfA :=
  ⟨0, ∅, EvalContext.bundleContext defaultNs ∅ ∅, _, .namespaceScope, .wait (Nat.le_refl 0), rfl⟩

theorem cancelled_storeOfA : Cancelled (fun _ _ => false) defaultA 0 storeOfA 30 storeOfA :=
  ⟨10, storeOfA, storeOfA, EvalContext.bundleContext defaultNs ∅ ∅, _, .wait (by decide), rfl,
    .wait (by decide)⟩

theorem expired_storeOfA : Cancelled (fun _ _ => false) defaultA 0 storeOfA 70 storeOfA :=
  ⟨10, storeOfA, storeOfA, EvalContext.bundleContext defaultNs ∅ ∅, _, .wait (by decide), rfl,
    .wait (by decide)⟩

-- Half a minute after the class has been saved for two minutes, and long after it has been saved and cancelled.
theorem persistentClass_defaultA :
    ∃ ctx ctx', EvalContext.evalContextHeapPersistentLoadAll (fun _ _ => false) EvalContext.new
        storeOfA 30 = some (ctx, storeOfA) ∧
      EvalContext.evalContextHeapPersistentLoadAll (fun _ _ => false) EvalContext.new storeOfA 70 =
        some (ctx', ∅) ∧
      (∀ x, x ∈ ctx.heapSoft ↔ x ∈ EvalContext.new.heapSoft ∨
        LoadedFromOthers defaultA storeOfA 30 x ∨ x = defaultA.qualified ∧ 30 ≤ 0 + 2 * 60) ∧
      defaultA.qualified ∉ ctx'.heapSoft :=
  ⟨_, _, rfl, rfl, ((persistentClass_iff saved_storeOfA (by decide)).left _ EvalContext.new _ _
      (.wait (by decide)) (by decide) rfl).mpr (by decide),
    ((persistentClass_iff saved_storeOfA (by decide)).right _ EvalContext.new _ _ expired_storeOfA
      (by decide) rfl).mpr (by decide)⟩

-- The class is cancelled by its name alone, which is no key of the store.
theorem cancelled_isDefinedClass :
    ∃ db ctx', Saved (fun _ _ => false) defaultA 2 .reset 0 storeOfA ∧
      Cancelled (fun _ _ => false) defaultA 0 storeOfA 30 db ∧
      EvalContext.evalContextHeapPersistentLoadAll (fun _ _ => false) EvalContext.new db 30 =
        some (ctx', db) ∧
      ctx'.isDefinedClass defaultA.name (some defaultA.ns) = true := by
  refine ⟨storeOfA, _, saved_storeOfA, cancelled_storeOfA, rfl, ?_⟩
  decide

end CfEngine
