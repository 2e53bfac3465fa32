import Ab32Vg1.Dfs.Mount
import Ab32Vg1.Dfs.PathNormal
import Ab32Vg1.Dfs.File
import Ab32Vg1.Kernel.MemRun
import Ab32Vg1.Kernel.MemFit
import Ab32Vg1.Kernel.MemContents
import Ab32Vg1.Kernel.MemAlign
import Ab32Vg1.Kernel.MemheapAlign
import Ab32Vg1.Kernel.MempoolRun
import Ab32Vg1.Kernel.RoundRobin
import Ab32Vg1.Kernel.TimerCheck
import Ab32Vg1.Kernel.FormatNumber
import Ab32Vg1.Drivers.Completion
import Ab32Vg1.Drivers.Waitqueue
import Ab32Vg1.Kernel.Switch
import Ab32Vg1.Kernel.Semaphore
import Ab32Vg1.Kernel.Mutex
import Ab32Vg1.Kernel.MailboxRun
import Ab32Vg1.Kernel.MessageQueueRun
import Ab32Vg1.Kernel.EventRun
import Ab32Vg1.Kernel.TimerRun
import Ab32Vg1.Drivers.BlockDev
import Ab32Vg1.Drivers.BlkRemove
import Ab32Vg1.Drivers.Sd
import Ab32Vg1.Drivers.SdioRun
import Ab32Vg1.Drivers.SdioDma
import Ab32Vg1.Drivers.AudioWrite
import Ab32Vg1.Drivers.Pin
import Ab32Vg1.Drivers.Pwm
import Ab32Vg1.Drivers.I2cRun
import Ab32Vg1.Drivers.Udelay
import Ab32Vg1.Drivers.Irrx
import Ab32Vg1.Drivers.Hwtimer
import Ab32Vg1.Drivers.SerialDma
import Ab32Vg1.Drivers.SerialTx
import Ab32Vg1.Drivers.SoundRun
import Ab32Vg1.Drivers.Rtc
import Ab32Vg1.Drivers.AlarmSelect
import Ab32Vg1.Drivers.RingBuffer
import Ab32Vg1.Drivers.RingBlockQueue
import Ab32Vg1.Drivers.DataQueueRun
import Ab32Vg1.Drivers.PipeRun
import Ab32Vg1.Drivers.PipeTransfer
import Ab32Vg1.Drivers.WorkqueueSync
import Ab32Vg1.Libc.Time
import Ab32Vg1.Finsh.CompilerRun
import Ab32Vg1.Finsh.ParserEnds
import Ab32Vg1.Finsh.Msh
import Ab32Vg1.Finsh.ShellRun
import Ab32Vg1.Finsh.QuotedScan
import Ab32Vg1.Kernel.WaitOrder
import Ab32Vg1.Kernel.SoftTimer
import Ab32Vg1.Kernel.Memory
import Ab32Vg1.Finsh.CodeBounds
import Ab32Vg1.Finsh.HeapLiteral
