import MallocLab.Memory
import MallocLab.Block
import MallocLab.Layout
import MallocLab.FreeOrder
import MallocLab.Chain
import MallocLab.Live
import MallocLab.Implicit.Basic
import MallocLab.Implicit.Spec
import MallocLab.Implicit.Blocks
import MallocLab.Implicit.Api
import MallocLab.Implicit.Run
import MallocLab.Segregated.Basic
import MallocLab.Segregated.Ring
import MallocLab.Segregated.Lists
import MallocLab.Segregated.Class
import MallocLab.Segregated.Spec
import MallocLab.Segregated.Blocks
import MallocLab.Segregated.Ops
import MallocLab.Segregated.Fit
import MallocLab.Segregated.Api
import MallocLab.Segregated.Init
import MallocLab.Segregated.Run
import MallocLab.Contract
import MallocLab.Refinement
import MallocLab.Reuse
