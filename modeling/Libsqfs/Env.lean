import Libsqfs.Medium

/-! What every part of the library works through: the allocator, the output
destination and the space claimed in it (`size` and `dst` of the image).
The outcome of each coming call is part of the environment, so that a property
for all environments holds for every pattern of failures. -/
namespace Libsqfs

def metadataSize : Nat := 8192

structure Env where
  size : Nat
  written : List Medium.Write
  mallocs : Nat → Bool
  pwrites : Nat → Bool

namespace Env

def malloc (env : Env) : Bool × Env :=
  (env.mallocs 0, {env with mallocs := fun n => env.mallocs (n + 1)})

def reserve (env : Env) (bytes : Nat) : Nat × Env :=
  (env.size, {env with size := env.size + bytes})

/- True means that the count returned is the size asked for, which no file
gives past the largest off_t. What a failed write left behind is unspecified
and not recorded. -/
def pwrite (env : Env) (data : Bytes) (offset : Nat) : Bool × Env :=
  let rest := {env with pwrites := fun n => env.pwrites (n + 1)}
  if env.pwrites 0 ∧ offset + data.length < 2 ^ 63 then
    (true, {rest with written := env.written ++ [(offset, data)]})
  else (false, rest)

def Granting (env : Env) : Prop := ∀ n, env.mallocs n = true

def fresh : Env := ⟨0, [], fun _ => true, fun _ => true⟩

@[simp] theorem reserveStart (env : Env) (bytes : Nat) : (env.reserve bytes).1 = env.size := rfl
@[simp] theorem reserveSize (env : Env) (bytes : Nat) :
    (env.reserve bytes).2.size = env.size + bytes := rfl
@[simp] theorem reserveWritten (env : Env) (bytes : Nat) :
    (env.reserve bytes).2.written = env.written := rfl

@[simp] theorem pwriteSize (env : Env) (data : Bytes) (offset : Nat) :
    (env.pwrite data offset).2.size = env.size := by
  simp only [pwrite]; split <;> rfl

theorem pwriteWritten {env next : Env} {data : Bytes} {offset : Nat}
    (ok : env.pwrite data offset = (true, next)) :
    next.written = env.written ++ [(offset, data)] ∧ next.size = env.size ∧
      next.mallocs = env.mallocs ∧ offset + data.length < 2 ^ 63 := by
  simp only [pwrite] at ok
  split at ok
  · rename_i done
    cases ok
    exact ⟨rfl, rfl, rfl, done.2⟩
  · cases ok

def Accepting (env : Env) : Prop := ∀ n, env.pwrites n = true

theorem pwriteAccepting {env : Env} (accepting : env.Accepting) {data : Bytes} {offset : Nat}
    (fits : offset + data.length < 2 ^ 63) :
    ∃ next, env.pwrite data offset = (true, next) ∧ next.Accepting := by
  simp only [pwrite, accepting 0, fits, and_self, if_true]
  exact ⟨_, rfl, fun n => accepting (n + 1)⟩

theorem mallocGranting {env : Env} (h : env.Granting) :
    env.malloc.1 = true ∧ env.malloc.2.Granting :=
  ⟨h 0, fun n => h (n + 1)⟩

end Env

/- The two operations of an opened instance; none stands for -1, a result for
the bytes put at the start of the destination buffer. The first one is told
whether there is a buffer at all, the second one may be a null pointer. -/
structure Compressor where
  compress : Bool → Bytes → Option Bytes
  compressMeta : Option (Bytes → Option Bytes)

/- What comes of calling a null pointer does not matter: the process has ended. -/
def Compressor.instanceCompressMeta (c : Compressor) (block : Bytes) : Option Bytes :=
  c.compressMeta.bind fun compress => compress block

end Libsqfs
