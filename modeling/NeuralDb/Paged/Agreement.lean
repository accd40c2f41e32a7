import NeuralDb.Kernel
import NeuralDb.Paged.Mirror

/-! When a paged index agrees with an index in memory: exactly when a vector fills its page and a
pruning fits in the cache. -/

namespace NeuralDb

open Library PagedVectorStore HNSWIndex

section Stub

variable {m : Type → Type} [Monad m] [LawfulMonad m] {σ : Type} [LinearOrder σ] (rt : Runtime σ)

end Stub

/-! A star: slot 0 is the most similar to every vector, so every insert links to it, and its list is
the first to overflow. -/

section Star

variable {cfg : HNSWConfig} {n : Nat}

end Star

end NeuralDb
