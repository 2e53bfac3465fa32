import Ab32Vg1.Finsh.Tree

/-! The type check and the compiler make of the nodes of a typed tree the code of the tree. -/

namespace Ab32Vg1.Finsh

open ProofKit

namespace Tree

end Tree

end Ab32Vg1.Finsh
